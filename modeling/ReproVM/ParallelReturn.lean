/-
# What `execute_tasks_parallel` returns

It returns when it has joined every worker.  A worker exits only where it sees an empty queue and
no task remaining, and then every task was completed: the tasks are conserved, from the counts of
`ParallelCounts`.  The flag `failed` tells of the tasks given up for lack of a hash; a failed
`execute_task` sets it too, but its worker never gets out of its second lock, and is not joined.
-/
import ReproVM.ParallelSafety

namespace ReproVM

open Bytes (ascii)
open Lib (Run)

variable {a : ParallelArgs} {s s' : ParallelState} {e : ParallelEvent} {tr : List ParallelEvent}

/-! ## 1. The call -/

/-- The number of workers: "if <=0, uses heuristic (4)". -/
def workerCount (maxWorkers : Int) : Nat := if maxWorkers ≤ 0 then 4 else maxWorkers.toNat

/-- `execute_tasks_parallel` returns `r`: without a step where there is no task, else from its
last join. -/
def ParallelReturns (a : ParallelArgs) (s : ParallelState) (r : Nat) : Prop :=
  if a.subset = [] then s = parallelInit a ∧ r = 0
  else s.main = .join a.workers ∧ r = if s.failed then 1 else 0

/-- The tasks with which `remaining` was lowered. -/
def completed (tr : List ParallelEvent) : List TaskPtr := finished tr ++ hashFailures tr

/-! ## 2. Where a task is -/

inductive Place
  /-- it waits for dependencies -/
  | unreleased
  | ready
  | held (w : Nat)
  | completed
deriving DecidableEq

def InPlace (a : ParallelArgs) (tr : List ParallelEvent) (s : ParallelState) (t : TaskPtr) :
    Place → Prop
  | .unreleased => 0 < s.pendingDeps (a.subset.idxOf t)
  | .ready => t ∈ s.ready
  | .held w => (s.pc w).task = some t
  | .completed => t ∈ completed tr

/-- A task that waits for dependencies was not released. -/
theorem unreleased_iff (hq : QueueInv a tr s) {t : TaskPtr} (ht : t ∈ a.subset) :
    InPlace a tr s t .unreleased ↔ t ∉ popped tr ++ s.ready := by
  have hcount : s.pendingDeps (a.subset.idxOf t) = remDeps a.list a.subset (finished tr) t :=
    hq.pending t ht
  rw [InPlace, hcount, ← hq.ready_iff t ht]
  omega

/-- **One place.** -/
theorem exists_unique_place (hh : HoldInv tr s) (hq : QueueInv a tr s) {t : TaskPtr}
    (ht : t ∈ a.subset) : ∃! p, InPlace a tr s t p := by
  have hdisj := List.disjoint_of_nodup_append hq.nodup
  have hun := unreleased_iff hq ht
  by_cases hrel : t ∈ popped tr ++ s.ready
  · have hnot : ¬ InPlace a tr s t .unreleased := fun h => hun.mp h hrel
    rcases List.mem_append.mp hrel with hp | hr
    · have hnr : t ∉ s.ready := hdisj hp
      by_cases hc : t ∈ completed tr
      · refine ⟨.completed, hc, fun p hin => ?_⟩
        cases p with
        | unreleased => exact absurd hin hnot
        | ready => exact absurd hin hnr
        | held w =>
          obtain ⟨-, h1, h2⟩ := hh.held w t hin
          rcases List.mem_append.mp hc with h | h
          · exact absurd h h1
          · exact absurd h h2
        | completed => rfl
      · have hw : ∃ w, (s.pc w).task = some t := by
          rcases hh.accounted t hp with h | h | h
          · exact absurd (List.mem_append_left _ h) hc
          · exact absurd (List.mem_append_right _ h) hc
          · exact h
        obtain ⟨w, hw⟩ := hw
        refine ⟨.held w, hw, fun p hin => ?_⟩
        cases p with
        | unreleased => exact absurd hin hnot
        | ready => exact absurd hin hnr
        | held v => rw [hh.unique v w t hin hw]
        | completed => exact absurd hin hc
    · refine ⟨.ready, hr, fun p hin => ?_⟩
      cases p with
      | unreleased => exact absurd hin hnot
      | ready => rfl
      | held w => exact absurd hr (hdisj (hh.held w t hin).1)
      | completed => exact absurd hr (hdisj (hh.ended.2 t hin))
  · refine ⟨.unreleased, hun.mpr hrel, fun p hin => ?_⟩
    cases p with
    | unreleased => rfl
    | ready => exact absurd (List.mem_append_right _ hin) hrel
    | held w => exact absurd (List.mem_append_left _ (hh.held w t hin).1) hrel
    | completed => exact absurd (List.mem_append_left _ (hh.ended.2 t hin)) hrel

/-- With nothing remaining, all are completed. -/
theorem all_completed (hh : HoldInv tr s) (hq : QueueInv a tr s) (h0 : s.remaining = 0) :
    (completed tr).Perm a.subset ∧ s.ready = [] ∧ ∀ w, (s.pc w).task = none := by
  obtain ⟨hnd, hpop⟩ := hh.ended
  have hsub : ∀ t ∈ completed tr, t ∈ a.subset :=
    fun t ht => hq.sub t (List.mem_append_left _ (hpop t ht))
  have hlen : a.subset.length ≤ (completed tr).length := by
    have := hq.remaining
    rw [completed, List.length_append]
    omega
  have hperm : (completed tr).Perm a.subset :=
    (hnd.subperm hsub).perm_of_length_le hlen
  have hdisj := List.disjoint_of_nodup_append hq.nodup
  refine ⟨hperm, ?_, fun w => ?_⟩
  · refine List.eq_nil_iff_forall_not_mem.mpr fun t ht => ?_
    have htc := hperm.mem_iff.mpr (hq.sub t (List.mem_append_right _ ht))
    exact hdisj (hpop t htc) ht
  · refine Option.eq_none_iff_forall_ne_some.mpr fun t ht => ?_
    obtain ⟨htp, h1, h2⟩ := hh.held w t ht
    have htc := hperm.mem_iff.mpr (hq.sub t (List.mem_append_left _ htp))
    rcases List.mem_append.mp htc with h | h
    · exact h1 h
    · exact h2 h

/-! ## 3. Exits, joins and the flag -/

/-- What a place of a worker says of the run so far. -/
def Pc.Tells (tr : List ParallelEvent) (remaining : Int) : Pc → Prop
  | .exited => remaining = 0
  | .lockHashFailed t | .hashFailed t => t ∈ failures tr
  | _ => True

/-- Events that set the flag. -/
def ParallelEvent.fails : ParallelEvent → Bool
  | .hashFailed _ _ | .failed _ _ => true
  | _ => false

/-- What a run up to a return rests on. -/
structure ReturnInv (tr : List ParallelEvent) (s : ParallelState) : Prop where
  pc : ∀ w, (s.pc w).Tells tr s.remaining
  gave : ∀ t ∈ hashFailures tr, t ∈ failures tr
  flag : s.failed = tr.any ParallelEvent.fails
  stuck : (∃ w t, .failed w t ∈ tr) → ∃ w t, s.pc w = .lockDone t ∧ s.mu = some (.worker w)
  joined : ∀ i, s.main = .join i → ∀ w < i, s.pc w = .exited

theorem returnInv_init : ReturnInv [] (parallelInit a) where
  pc _ := trivial
  gave t h := by simp [hashFailures] at h
  flag := rfl
  stuck := by simp
  joined i h := by simp [parallelInit] at h

/-- `remaining` is lowered by a worker that holds a task. -/
theorem remaining_step (hl : LockInv a tr s) (hs : ParallelStep a s e s') :
    s'.remaining = s.remaining ∨ ∃ w t, (s.pc w).task = some t := by
  cases e with
  | hashFailed w t =>
    obtain ⟨hpc, -⟩ := parallelStep_iff.mp hs
    exact .inr ⟨w, t, by rw [hpc]; rfl⟩
  | done w t =>
    obtain ⟨hpc, -⟩ := parallelStep_iff.mp hs
    exact .inr ⟨w, t, by rw [hpc]; rfl⟩
  | pop w t =>
    obtain ⟨rest, -, -, rfl⟩ := parallelStep_iff.mp hs
    exact .inl rfl
  | _ => exact .inl (quiet_step hl (by trivial) hs).2.2.1

theorem failures_mono {t : TaskPtr} (h : t ∈ failures tr) (e : ParallelEvent) :
    t ∈ failures (tr ++ [e]) := by
  rw [failures_append]
  exact List.mem_append_left _ h

/-- A place still tells the truth after a step. -/
theorem Pc.Tells.step {p : Pc} (h : p.Tells tr s.remaining) (hrem : s'.remaining = s.remaining ∨
    s.remaining ≠ 0) : p.Tells (tr ++ [e]) s'.remaining := by
  cases p with
  | exited =>
    rcases hrem with h1 | h1
    · exact h1.trans h
    · exact absurd h h1
  | lockHashFailed t | hashFailed t => exact failures_mono h e
  | _ => trivial

theorem tells_step (h : ∀ w, (s.pc w).Tells tr s.remaining)
    (hrem : s'.remaining = s.remaining ∨ s.remaining ≠ 0) (hs : ParallelStep a s e s') (w : Nat) :
    (s'.pc w).Tells (tr ++ [e]) s'.remaining := by
  have hw := (h w).step (e := e) hrem
  rcases pc_step hs w with h1 | ⟨-, h1⟩ | h1
  · rwa [h1]
  · rw [h1]
    trivial
  · generalize s.pc w = p, hq : s'.pc w = q at h1 hw ⊢
    cases h1 with
    | lock hpc => cases p <;> simp_all [Pc.locked] <;> subst hpc <;> trivial
    | noHash w t =>
      change t ∈ failures (tr ++ [ParallelEvent.hash w t false])
      rw [failures_append]
      exact List.mem_append_right _ (by simp [failures])
    | exit w =>
      obtain ⟨-, -, h0, rfl⟩ := parallelStep_iff.mp hs
      exact h0
    | _ => trivial

/-- Events of the main thread. -/
def ParallelEvent.ofMain : ParallelEvent → Bool
  | .spawn | .mainLock | .mainBroadcast | .join => true
  | _ => false

/-- Who writes the flag and the place of the main thread. -/
theorem frame_step (hs : ParallelStep a s e s') :
    s'.failed = (s.failed || e.fails) ∧ (e.ofMain = false → s'.main = s.main) := by
  rw [parallelStep_iff] at hs
  unfold ParallelEvent.fails ParallelEvent.ofMain
  cases e with
  | spawn =>
    obtain ⟨i, -, -, rfl⟩ := hs
    simp [ParallelState.goto]
  | join =>
    obtain ⟨i, -, -, -, rfl⟩ := hs
    simp
  | mainLock =>
    obtain ⟨-, -, rfl⟩ := hs
    simp [ParallelState.setMu]
  | mainBroadcast =>
    obtain ⟨-, rfl⟩ := hs
    simp [ParallelState.setMu, ParallelState.broadcast]
  | lock w =>
    obtain ⟨-, pc, -, rfl⟩ := hs
    simp [ParallelState.setMu, ParallelState.goto]
  | wait w | exit w | retry w =>
    obtain ⟨-, -, -, rfl⟩ := hs
    simp [ParallelState.setMu, ParallelState.goto]
  | pop w t =>
    obtain ⟨rest, -, -, rfl⟩ := hs
    simp [ParallelState.setMu, ParallelState.goto, ParallelState.setStatus]
  | hash w t ok | lookup w t ok | command w t ok | record w t ok =>
    cases ok <;> obtain ⟨-, rfl⟩ := hs <;> simp [ParallelState.goto, ParallelState.setStatus]
  | hashFailed w t | failed w t =>
    obtain ⟨-, rfl⟩ := hs
    simp
  | done w t =>
    obtain ⟨-, pd, rd, rfl⟩ := ParallelEvent.Spec.done hs
    simp [ParallelState.setMu, ParallelState.broadcast, ParallelState.goto]
  | spurious w =>
    obtain ⟨-, rfl⟩ := hs
    simp [ParallelState.goto]

/-- A worker at its second lock stays there. -/
theorem stuck_step (hl : LockInv a tr s) (hs : ParallelStep a s e s') {w : Nat} {t : TaskPtr}
    (hpc : s.pc w = .lockDone t) (hmu : s.mu = some (.worker w)) :
    s'.pc w = .lockDone t ∧ s'.mu = some (.worker w) := by
  refine ⟨?_, lockDone_mu hl hs hpc hmu⟩
  rcases pc_step hs w with h1 | ⟨h1, -⟩ | h1
  · rw [h1, hpc]
  · rw [hpc] at h1
    exact absurd h1 (by simp)
  · cases e with
    | spawn =>
      obtain ⟨i, -, hm, rfl⟩ := parallelStep_iff.mp hs
      have hi : s.pc i = .unborn := (hl.unborn i).mpr (by rw [hm]; exact Nat.le_refl i)
      have hwi : w ≠ i := by
        rintro rfl
        simp [hpc] at hi
      exact (goto_pc s i .top w).trans ((if_neg hwi).trans hpc)
    | lock v =>
      obtain ⟨hn, -⟩ := parallelStep_iff.mp hs
      simp [hmu] at hn
    | _ =>
      rw [hpc] at h1
      cases h1

theorem failed_mem_append (h : ∃ w t, .failed w t ∈ tr ++ [e]) :
    (∃ w t, .failed w t ∈ tr) ∨ ∃ w t, e = .failed w t := by
  obtain ⟨w, t, h⟩ := h
  rcases List.mem_append.mp h with h | h
  · exact .inl ⟨w, t, h⟩
  · exact .inr ⟨w, t, (List.mem_singleton.mp h).symm⟩

/-- Only a join advances the main thread past a worker. -/
theorem joined_step (h : ∀ i, s.main = .join i → ∀ w < i, s.pc w = .exited)
    (hs : ParallelStep a s e s') (i : Nat) (hi : s'.main = .join i) :
    ∀ w < i, s'.pc w = .exited := by
  have hkeep : e ≠ .spawn → ∀ w, s.pc w = .exited → s'.pc w = .exited := by
    intro hsp w hw
    rcases pc_step hs w with h1 | ⟨h1, -⟩ | h1
    · rw [h1, hw]
    · rw [hw] at h1
      exact absurd h1 (by simp)
    · generalize s'.pc w = q at h1 ⊢
      rw [hw] at h1
      cases h1 with
      | spawn => exact absurd rfl hsp
      | lock hpc => simp [Pc.locked] at hpc
  cases e with
  | spawn =>
    obtain ⟨j, -, -, rfl⟩ := parallelStep_iff.mp hs
    simp at hi
  | mainLock =>
    obtain ⟨-, -, rfl⟩ := parallelStep_iff.mp hs
    simp at hi
  | mainBroadcast =>
    obtain ⟨-, rfl⟩ := parallelStep_iff.mp hs
    obtain rfl : 0 = i := by simpa using hi
    exact fun w hw => absurd hw (Nat.not_lt_zero w)
  | join =>
    obtain ⟨j, -, hm, hpc, rfl⟩ := parallelStep_iff.mp hs
    obtain rfl : j + 1 = i := by simpa using hi
    intro w hw
    rcases Nat.lt_succ_iff_lt_or_eq.mp hw with hw | rfl
    · exact h j hm w hw
    · exact hpc
  | _ =>
    rw [(frame_step hs).2 rfl] at hi
    exact fun w hw => hkeep (by simp) w (h i hi w hw)

theorem ReturnInv.step (h : ReturnInv tr s)
    (hnone : s.remaining = 0 → ∀ w, (s.pc w).task = none) (hl : LockInv a tr s) (hs : ParallelStep a s e s') : ReturnInv (tr ++ [e]) s' where
  pc := by
    refine tells_step h.pc ?_ hs
    refine (remaining_step hl hs).imp_right ?_
    rintro ⟨w, t, hw⟩ h0
    rw [hnone h0 w] at hw
    exact absurd hw (by simp)
  gave t ht := by
    rw [hashFailures_append, List.mem_append] at ht
    rcases ht with ht | ht
    · exact failures_mono (h.gave t ht) e
    · cases e with
      | hashFailed w u =>
        obtain rfl : t = u := by simpa [hashFailures] using ht
        have hw := h.pc w
        rw [(parallelStep_iff.mp hs).1] at hw
        exact failures_mono hw _
      | _ => simp [hashFailures] at ht
  flag := by
    rw [(frame_step hs).1, h.flag, List.any_append]
    simp
  stuck hf := by
    rcases failed_mem_append hf with hf | ⟨w, t, rfl⟩
    · obtain ⟨w, t, hpc, hmu⟩ := h.stuck hf
      exact ⟨w, t, stuck_step hl hs hpc hmu⟩
    · obtain ⟨hpc, rfl⟩ := parallelStep_iff.mp hs
      exact ⟨w, t, by simp [goto_pc], hl.owner w (by rw [hpc]; trivial)⟩
  joined := joined_step h.joined hs

theorem returnInv_run (ha : a.Ok) (h : Run (ParallelStep a) (parallelInit a) tr s) :
    ReturnInv tr s :=
  Run.inv returnInv_init (fun _ _ _ _ hr hi hs =>
    hi.step (fun h0 => (all_completed (counts_run ha hr).1 (counts_run ha hr).2 h0).2.2)
      (lockInv_run hr) hs) h

/-! ## 4. The return -/

/-- Where all workers are joined, no `execute_task` has failed. -/
theorem not_failed_of_joined (hl : LockInv a tr s) (hi : ReturnInv tr s)
    (hm : s.main = .join a.workers) (w : Nat) (t : TaskPtr) : .failed w t ∉ tr := by
  intro hf
  obtain ⟨v, u, hpc, -⟩ := hi.stuck ⟨w, t, hf⟩
  by_cases hv : v < a.workers
  · have := hi.joined _ hm v hv
    rw [hpc] at this
    exact absurd this (by simp)
  · have := (hl.unborn v).mpr (by rw [hm]; exact Nat.le_of_not_lt hv)
    rw [hpc] at this
    exact absurd this (by simp)

/-- The flag says whether a task was given up. -/
theorem flag_iff (hi : ReturnInv tr s) (hev : ∀ w t, .failed w t ∉ tr) :
    s.failed = true ↔ ∃ t, t ∈ hashFailures tr := by
  rw [hi.flag, List.any_eq_true]
  constructor
  · rintro ⟨e, he, hf⟩
    cases e with
    | hashFailed w t => exact ⟨t, List.mem_filterMap.mpr ⟨_, he, rfl⟩⟩
    | failed w t => exact absurd he (hev w t)
    | _ => simp [ParallelEvent.fails] at hf
  · rintro ⟨t, ht⟩
    obtain ⟨e, he, hf⟩ := List.mem_filterMap.mp ht
    refine ⟨e, he, ?_⟩
    cases e with
    | hashFailed w t => rfl
    | _ => simp at hf

/-- **The return** of the executor. -/
theorem returns_completed (ha : a.Ok) (hw : 0 < a.workers)
    (h : Run (ParallelStep a) (parallelInit a) tr s) {r : Nat} (hr : ParallelReturns a s r) :
    s.ready = [] ∧ (completed tr).Perm a.subset ∧
      (r = 0 ↔ ∀ t ∈ a.subset, (s.status t).Good) := by
  obtain ⟨hh, hq⟩ := counts_run ha h
  have hst := statusInv_run ha h
  have hi := returnInv_run ha h
  unfold ParallelReturns at hr
  by_cases hne : a.subset = []
  · rw [if_pos hne] at hr
    obtain ⟨hs, rfl⟩ := hr
    have hrem : s.remaining = 0 := by
      rw [hs, parallelInit, hne]
      rfl
    obtain ⟨hperm, hready, -⟩ := all_completed hh hq hrem
    exact ⟨hready, hperm, by simp [hne]⟩
  · rw [if_neg hne] at hr
    obtain ⟨hm, rfl⟩ := hr
    have hrem : s.remaining = 0 := by
      have := hi.pc 0
      rwa [hi.joined _ hm 0 hw] at this
    obtain ⟨hperm, hready, -⟩ := all_completed hh hq hrem
    refine ⟨hready, hperm, ?_⟩
    have hflag := flag_iff hi (not_failed_of_joined (lockInv_run h) hi hm)
    constructor
    · intro h0 t ht
      have hno : ¬ ∃ u, u ∈ hashFailures tr := by
        rw [← hflag]
        intro hf
        simp [hf] at h0
      rcases List.mem_append.mp (hperm.mem_iff.mpr ht) with hc | hc
      · exact hst.good t hc
      · exact absurd ⟨t, hc⟩ hno
    · intro hgood
      have hno : ¬ s.failed = true := by
        rw [hflag]
        rintro ⟨t, ht⟩
        have hg := hgood t (hperm.mem_iff.mp (List.mem_append_right _ ht))
        rw [(hst.bad t (hi.gave t ht)).1] at hg
        rcases hg with hg | hg <;> exact absurd hg (by simp)
      simp [hno]

theorem workerCount_pos (maxWorkers : Int) : 0 < workerCount maxWorkers := by
  unfold workerCount
  split
  · decide
  · omega

/-- **No task is lost.**  In every run `remaining` counts the tasks not completed, each of which
is completed once at most; every task is in one place; and where the call returns, all were
completed, and the value is 0 iff all ended well. -/
theorem parallel_conservation {moves : Nat → Bool} {fuel : Nat} {manifest : Bytes}
    {targets : List Bytes} {subset : List TaskPtr} (maxWorkers : Int)
    (hn : ((parseManifest manifest).map Task.name).Nodup)
    (hc : collectNeededTasks moves fuel (parseManifest manifest) targets = .ok subset)
    {tr : List ParallelEvent} {s : ParallelState}
    (h : Run (ParallelStep ⟨parseManifest manifest, subset, workerCount maxWorkers⟩)
      (parallelInit ⟨parseManifest manifest, subset, workerCount maxWorkers⟩) tr s) :
    (completed tr).Nodup ∧ s.remaining = subset.length - (completed tr).length ∧
      s.ready.Nodup ∧
      (∀ t ∈ subset,
        ∃! p, InPlace ⟨parseManifest manifest, subset, workerCount maxWorkers⟩ tr s t p) ∧
      ∀ r, ParallelReturns ⟨parseManifest manifest, subset, workerCount maxWorkers⟩ s r →
        s.ready = [] ∧ (completed tr).Perm subset ∧
          (r = 0 ↔ ∀ t ∈ subset, s.status t = .skipped ∨ s.status t = .success) := by
  have ha := parallelArgs_ok (workerCount maxWorkers) hn hc
  obtain ⟨hh, hq⟩ := counts_run ha h
  refine ⟨hh.ended.1, ?_, hq.nodup.of_append_right, fun t ht => exists_unique_place hh hq ht,
    fun r hr => returns_completed ha (workerCount_pos maxWorkers) h hr⟩
  have hrem : s.remaining + ((finished tr).length + (hashFailures tr).length : Nat)
    = (subset.length : Int) := hq.remaining
  rw [completed, List.length_append]
  omega

/-- The theorem at a run of one worker that is given two tasks, and at its return. -/
theorem parallel_conservation_chain :
    let manifest := ascii "task a \x7b\n\x7d\ntask b \x7b\n  deps = a\n\x7d\n"
    let a : ParallelArgs := ⟨parseManifest manifest, [0, 1], workerCount 1⟩
    let tr : List ParallelEvent := [.spawn, .mainLock, .mainBroadcast, .lock 0, .pop 0 0,
      .hash 0 0 true, .lookup 0 0 true, .lock 0, .done 0 0, .lock 0, .pop 0 1, .hash 0 1 true,
      .lookup 0 1 false, .command 0 1 true, .record 0 1 true, .lock 0, .done 0 1, .lock 0,
      .exit 0, .join]
    collectNeededTasks (fun _ => false) 3 (parseManifest manifest) [ascii "b"] = .ok [0, 1] ∧
      ∃ s, Run (ParallelStep a) (parallelInit a) tr s ∧ ParallelReturns a s 0 ∧
        (completed tr).Perm [0, 1] ∧ ∀ t ∈ [0, 1], s.status t = .skipped ∨ s.status t = .success := by
  intro manifest a tr
  have hn : ((parseManifest manifest).map Task.name).Nodup := by decide
  have hc : collectNeededTasks (fun _ => false) 3 (parseManifest manifest) [ascii "b"]
      = .ok [0, 1] := by decide
  have hend : (tr.foldlM (parallelStep a) (parallelInit a)).map (fun s => (s.main, s.failed))
      = some (.join 1, false) := by decide +kernel
  obtain ⟨s, hs, hsf⟩ := Option.map_eq_some_iff.mp hend
  obtain ⟨hm, hf⟩ := Prod.mk.inj hsf
  have hrun := Run.of_foldlM hs
  obtain ⟨-, -, -, -, hret⟩ := parallel_conservation 1 hn hc hrun
  have hr : ParallelReturns a s 0 := by
    rw [ParallelReturns, if_neg (by simp [a])]
    exact ⟨hm, by simp [hf]⟩
  obtain ⟨-, hperm, hgood⟩ := hret 0 hr
  exact ⟨hc, s, hrun, hr, hperm, hgood.mp rfl⟩

end ReproVM
