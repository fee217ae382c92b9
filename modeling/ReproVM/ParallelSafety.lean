/-
# What a dequeued task can rely on

The status of a task is written by the worker that holds it.  A completed task ended well: its
worker reached the section "after completion" through a cache hit or a record written, since the
way through a failed `execute_task` stops at its second lock.  With the counts of
`ParallelCounts` a task in the queue has only completed tasks below it.
-/
import ReproVM.ParallelCounts

namespace ReproVM

open Bytes (ascii)
open Lib (PostOrder Run)
open Relation

variable {a : ParallelArgs} {s s' : ParallelState} {e : ParallelEvent} {tr : List ParallelEvent}

/-! ## 1. Statuses -/

/-- What the status of the task a worker holds is, by where the worker stands. -/
def Pc.Expects : Pc → TaskStatus → Prop
  | .hash _ | .lookup _ | .command _ | .record _ => fun st => st = .running
  | .lockDone _ | .done _ => TaskStatus.Good
  | _ => fun _ => True

/-- The tasks that failed, in any of the three ways. -/
def failures (tr : List ParallelEvent) : List TaskPtr :=
  tr.filterMap fun
    | .hash _ t false | .command _ t false | .record _ t false => some t
    | _ => none

theorem failures_append (tr tr' : List ParallelEvent) :
    failures (tr ++ tr') = failures tr ++ failures tr' :=
  List.filterMap_append ..

theorem failures_same (h : failures [e] = []) : failures (tr ++ [e]) = failures tr := by
  rw [failures_append, h, List.append_nil]

/-- The statuses of the tasks that workers hold, of completed tasks and of failed ones. -/
structure StatusInv (tr : List ParallelEvent) (s : ParallelState) : Prop where
  held : ∀ w t, (s.pc w).task = some t → (s.pc w).Expects (s.status t) ∨
    s.pc w = .lockDone t ∧ s.mu = some (.worker w)
  good : ∀ t ∈ finished tr, (s.status t).Good
  bad : ∀ t ∈ failures tr, s.status t = .failed ∧ t ∈ popped tr

theorem statusInv_init : StatusInv [] (parallelInit a) where
  held w t h := by simp [parallelInit, Pc.task] at h
  good t h := by simp [finished] at h
  bad t h := by simp [failures] at h

/-- A worker that holds a task and does not wait for the lock after it. -/
theorem StatusInv.expects (h : StatusInv tr s) {w : Nat} {t : TaskPtr} {p : Pc} (hpc : s.pc w = p)
    (hp : p ≠ .lockDone t) (ht : p.task = some t) : p.Expects (s.status t) := by
  subst hpc
  exact (h.held w t ht).resolve_right fun he => hp he.1

/-- What one step has to do: worker `w` may write the status of the task it holds or takes, and
the others stay or are woken. -/
theorem StatusInv.act (h : StatusInv tr s) (hh : HoldInv tr s) (w : Nat)
    (hst : ∀ u, s'.status u ≠ s.status u → u ∉ popped tr ∨
      (s.pc w).task = some u ∧ (u ∈ failures tr → s'.status u = .failed))
    (hpc : ∀ v, v ≠ w → s'.pc v = s.pc v ∨ (s'.pc v).task = none)
    (hmu : ∀ v t, s.pc v = .lockDone t → s.mu = some (.worker v) → s'.mu = some (.worker v))
    (hself : ∀ u, (s'.pc w).task = some u → (s'.pc w).Expects (s'.status u) ∨
      s'.pc w = .lockDone u ∧ s'.mu = some (.worker w))
    (hfin : ∀ u ∈ finished (tr ++ [e]), u ∈ finished tr ∨ (s'.status u).Good)
    (hfail : ∀ u ∈ failures (tr ++ [e]),
      u ∈ failures tr ∨ s'.status u = .failed ∧ u ∈ popped tr) :
    StatusInv (tr ++ [e]) s' where
  held v u hu := by
    by_cases hv : v = w
    · subst hv
      exact hself u hu
    · rcases hpc v hv with heq | hnone
      · rw [heq] at hu ⊢
        have hsame : s'.status u = s.status u := by
          by_contra hne
          rcases hst u hne with hu' | ⟨hu', -⟩
          · exact hu' (hh.held v u hu).1
          · exact hv (hh.unique v w u hu hu')
        rw [hsame]
        rcases h.held v u hu with h1 | ⟨h1, h2⟩
        · exact .inl h1
        · exact .inr ⟨h1, hmu v u h1 h2⟩
      · rw [hnone] at hu
        exact absurd hu (by simp)
  good u hu := by
    rcases hfin u hu with hold | hnew
    · have hsame : s'.status u = s.status u := by
        by_contra hne
        rcases hst u hne with hu' | ⟨hu', -⟩
        · exact hu' (hh.ended.2 u (List.mem_append_left _ hold))
        · exact (hh.held w u hu').2.1 hold
      rw [hsame]
      exact h.good u hold
    · exact hnew
  bad u hu := by
    have hmono : u ∈ popped tr → u ∈ popped (tr ++ [e]) := by
      rw [popped_append]
      exact List.mem_append_left _
    rcases hfail u hu with hold | ⟨hnew, hp⟩
    · obtain ⟨hf, hp⟩ := h.bad u hold
      refine ⟨?_, hmono hp⟩
      by_contra hne
      rcases hst u (fun heq => hne (heq.trans hf)) with hu' | ⟨-, hu'⟩
      · exact hu' hp
      · exact hne (hu' hold)
    · exact ⟨hnew, hmono hp⟩

/-- A worker that runs a task it has not failed on. -/
theorem StatusInv.running (h : StatusInv tr s) {w : Nat} {t : TaskPtr}
    (ht : (s.pc w).task = some t) (hd : ∀ u, s.pc w ≠ .lockDone u)
    (hr : ∀ st, (s.pc w).Expects st → st = .running) : t ∉ failures tr := by
  intro hf
  have hfailed := (h.bad t hf).1
  rw [hr _ (h.expects rfl (hd t) ht)] at hfailed
  exact absurd hfailed (by simp)

/-- No lock is lost by a worker that waits for it. -/
theorem lockDone_mu (hl : LockInv a tr s) (hs : ParallelStep a s e s') {v : Nat} {t : TaskPtr}
    (hv : s.pc v = .lockDone t) (hmu : s.mu = some (.worker v)) : s'.mu = some (.worker v) := by
  have hown : ∀ w, (s.pc w).critical → False := by
    intro w hc
    have := hl.owner w hc
    rw [hmu] at this
    obtain rfl : v = w := by simpa using this
    rw [hv] at hc
    exact hc
  rw [parallelStep_iff] at hs
  cases e with
  | spawn =>
    obtain ⟨i, -, -, rfl⟩ := hs
    exact hmu
  | mainLock =>
    obtain ⟨-, hn, -⟩ := hs
    simp [hmu] at hn
  | mainBroadcast =>
    obtain ⟨hm, -⟩ := hs
    have := hl.main_mu.mpr hm
    simp [hmu] at this
  | join =>
    obtain ⟨i, -, -, -, rfl⟩ := hs
    exact hmu
  | lock w =>
    obtain ⟨hn, -⟩ := hs
    simp [hmu] at hn
  | wait w => exact (hown w (by rw [hs.1]; trivial)).elim
  | exit w => exact (hown w (by rw [hs.1]; trivial)).elim
  | retry w => exact (hown w (by rw [hs.1]; trivial)).elim
  | pop w t =>
    obtain ⟨rest, -, hpc, -⟩ := hs
    exact (hown w (by rw [hpc]; trivial)).elim
  | hash w t ok => cases ok <;> obtain ⟨-, rfl⟩ := hs <;> exact hmu
  | lookup w t hit => cases hit <;> obtain ⟨-, rfl⟩ := hs <;> exact hmu
  | command w t ok => cases ok <;> obtain ⟨-, rfl⟩ := hs <;> exact hmu
  | record w t ok => cases ok <;> obtain ⟨-, rfl⟩ := hs <;> exact hmu
  | hashFailed w t => exact (hown w (by rw [hs.1]; trivial)).elim
  | failed w t => exact (hown w (by rw [hs.1]; trivial)).elim
  | done w t => exact (hown w (by rw [hs.1]; trivial)).elim
  | spurious w =>
    obtain ⟨-, rfl⟩ := hs
    exact hmu

/-- Events that neither complete a task nor fail it. -/
def ParallelEvent.Plain : ParallelEvent → Prop
  | .done _ _ | .hash _ _ false | .command _ _ false | .record _ _ false => False
  | _ => True

theorem ParallelEvent.Plain.lists (h : e.Plain) (tr : List ParallelEvent) :
    finished (tr ++ [e]) = finished tr ∧ failures (tr ++ [e]) = failures tr := by
  cases e with
  | hash w t ok =>
    cases ok with
    | true => exact ⟨finished_same rfl, failures_same rfl⟩
    | false => exact h.elim
  | command w t ok =>
    cases ok with
    | true => exact ⟨finished_same rfl, failures_same rfl⟩
    | false => exact h.elim
  | record w t ok =>
    cases ok with
    | true => exact ⟨finished_same rfl, failures_same rfl⟩
    | false => exact h.elim
  | done w t => exact h.elim
  | _ => exact ⟨finished_same rfl, failures_same rfl⟩

/-- A step that writes no status, completes and fails nothing. -/
theorem StatusInv.silent (h : StatusInv tr s) (hh : HoldInv tr s) (hl : LockInv a tr s)
    (hs : ParallelStep a s e s') (hp : e.Plain) (hst : s'.status = s.status) (w : Nat)
    (hpc : ∀ v, v ≠ w → s'.pc v = s.pc v ∨ (s'.pc v).task = none)
    (hself : ∀ u, (s'.pc w).task = some u → (s'.pc w).Expects (s.status u) ∨
      s'.pc w = .lockDone u ∧ s'.mu = some (.worker w)) : StatusInv (tr ++ [e]) s' := by
  obtain ⟨h1, h2⟩ := hp.lists tr
  refine h.act hh w (fun u hu => absurd (congrFun hst u) hu) hpc
    (fun v t hv hmu => lockDone_mu hl hs hv hmu) (fun u hu => ?_) (fun u hu => ?_) (fun u hu => ?_)
  · rw [hst]
    exact hself u hu
  · exact .inl (h1 ▸ hu)
  · exact .inl (h2 ▸ hu)

/-- A step of the worker that holds `t`, which writes the status of `t`. -/
theorem StatusInv.write (h : StatusInv tr s) (hh : HoldInv tr s) (hl : LockInv a tr s)
    (hs : ParallelStep a s e s') {w : Nat} {t : TaskPtr} {pc : Pc} {st : TaskStatus}
    (hs' : s' = (s.goto w pc).setStatus t st) (ht : (s.pc w).task = some t) (hpt : pc.task = some t)
    (hex : pc.Expects st) (hfin : finished (tr ++ [e]) = finished tr)
    (hfail : failures (tr ++ [e]) = failures tr ∧ t ∉ failures tr ∨
      failures (tr ++ [e]) = failures tr ++ [t] ∧ st = .failed) : StatusInv (tr ++ [e]) s' := by
  subst hs'
  refine h.act hh w (fun u hu => .inr ?_) (fun v hv => .inl ?_)
    (fun v t hv hmu => lockDone_mu hl hs hv hmu) (fun u hu => .inl ?_) (fun u hu => .inl (hfin ▸ hu))
    (fun u hu => ?_)
  · rw [setStatus_status] at hu ⊢
    by_cases hut : u = t
    · subst hut
      refine ⟨ht, fun hf => ?_⟩
      rw [if_pos rfl]
      rcases hfail with ⟨-, hn⟩ | ⟨-, rfl⟩
      · exact absurd hf hn
      · rfl
    · rw [if_neg hut] at hu
      exact absurd rfl hu
  · rw [setStatus_pc, goto_pc, if_neg hv]
  · rw [setStatus_pc, goto_pc, if_pos rfl] at hu ⊢
    obtain rfl : u = t := Option.some.inj (hu.symm.trans hpt)
    rw [setStatus_status, if_pos rfl]
    exact hex
  · rcases hfail with ⟨h1, -⟩ | ⟨h1, rfl⟩
    · exact .inl (h1 ▸ hu)
    · rw [h1, List.mem_append, List.mem_singleton] at hu
      rcases hu with hu | rfl
      · exact .inl hu
      · refine .inr ⟨?_, (hh.held w u ht).1⟩
        rw [setStatus_status, if_pos rfl]

/-- A step that moves worker `w` to a place that asks nothing new of the status. -/
theorem StatusInv.move (h : StatusInv tr s) (hh : HoldInv tr s) (hl : LockInv a tr s)
    (hs : ParallelStep a s e s') (hp : e.Plain) (hst : s'.status = s.status) {w : Nat} {pc : Pc}
    (hpc : s'.pc = (s.goto w pc).pc)
    (hex : ∀ u, pc.task = some u → pc.Expects (s.status u) ∨
      pc = .lockDone u ∧ s'.mu = some (.worker w)) : StatusInv (tr ++ [e]) s' := by
  refine h.silent hh hl hs hp hst w (fun v hv => .inl ?_) (fun u hu => ?_)
  · rw [hpc, goto_pc, if_neg hv]
  · rw [hpc, goto_pc, if_pos rfl] at hu ⊢
    exact hex u hu

/-- The same with a broadcast. -/
theorem StatusInv.move_broadcast (h : StatusInv tr s) (hh : HoldInv tr s) (hl : LockInv a tr s)
    (hs : ParallelStep a s e s') (hp : e.Plain) (hst : s'.status = s.status) {w : Nat}
    (hpc : s'.pc = (s.goto w .top).broadcast.pc) : StatusInv (tr ++ [e]) s' := by
  refine h.silent hh hl hs hp hst w (fun v hv => ?_) (fun u hu => ?_)
  · rw [hpc, broadcast_pc, goto_pc, if_neg hv]
    split
    · exact .inr rfl
    · exact .inl rfl
  · rw [hpc, broadcast_pc, goto_pc, if_pos rfl] at hu
    exact absurd hu (by simp [Pc.task])

/-- A worker with the mutex expects no more of the status than one that waits for it. -/
theorem expects_locked {p q : Pc} (hp : p.locked = some q) {t : TaskPtr} (ht : p.task = some t) :
    (∃ u, p = .lockDone u ∧ q = .done u) ∨ ∀ st, q.Expects st := by
  cases p <;> simp_all [Pc.locked, Pc.task] <;> subst hp <;> simp [Pc.Expects]

theorem StatusInv.step (h : StatusInv tr s) (hh : HoldInv tr s) (hl : LockInv a tr s)
    (hnd : (popped tr ++ s.ready).Nodup) (hs : ParallelStep a s e s') :
    StatusInv (tr ++ [e]) s' := by
  have hs0 := hs
  rw [parallelStep_iff] at hs
  cases e with
  | spawn =>
    obtain ⟨i, -, -, rfl⟩ := hs
    exact h.move hh hl hs0 trivial rfl rfl (fun u hu => absurd hu (by simp [Pc.task]))
  | mainLock =>
    obtain ⟨-, -, rfl⟩ := hs
    refine h.silent hh hl hs0 trivial rfl 0 (fun v _ => .inl rfl) (fun u hu => ?_)
    rcases h.held 0 u hu with h1 | ⟨h1, h2⟩
    · exact .inl h1
    · exact .inr ⟨h1, lockDone_mu hl hs0 h1 h2⟩
  | mainBroadcast =>
    obtain ⟨hm, rfl⟩ := hs
    have hpc : ∀ v, s.broadcast.pc v = s.pc v ∨ (s.broadcast.pc v).task = none := by
      intro v
      rw [broadcast_pc]
      split
      · exact .inr rfl
      · exact .inl rfl
    refine h.silent hh hl hs0 trivial rfl 0 (fun v _ => hpc v) (fun u hu => ?_)
    rcases hpc 0 with h0 | h0
    · rw [setMu_pc, h0] at hu ⊢
      rcases h.held 0 u hu with h1 | ⟨h1, h2⟩
      · exact .inl h1
      · exact .inr ⟨h1, lockDone_mu hl hs0 h1 h2⟩
    · rw [setMu_pc, h0] at hu
      exact absurd hu (by simp)
  | join =>
    obtain ⟨i, -, -, -, rfl⟩ := hs
    exact h.silent hh hl hs0 trivial rfl 0 (fun v _ => .inl rfl) (h.held 0)
  | lock w =>
    obtain ⟨hmu, pc, hpc, rfl⟩ := hs
    refine h.move hh hl hs0 trivial rfl (w := w) rfl (fun u hu => .inl ?_)
    have hold : (s.pc w).task = some u := Pc.task_locked hpc ▸ hu
    rcases expects_locked hpc hold with ⟨u', hp, rfl⟩ | hall
    · rcases h.held w u hold with h1 | ⟨-, h1⟩
      · rw [hp] at h1
        exact h1
      · simp [hmu] at h1
    · exact hall _
  | wait w =>
    obtain ⟨-, -, -, rfl⟩ := hs
    exact h.move hh hl hs0 trivial rfl (w := w) rfl (fun u hu => absurd hu (by simp [Pc.task]))
  | exit w =>
    obtain ⟨-, -, -, rfl⟩ := hs
    exact h.move hh hl hs0 trivial rfl (w := w) rfl (fun u hu => absurd hu (by simp [Pc.task]))
  | retry w =>
    obtain ⟨-, -, -, rfl⟩ := hs
    exact h.move hh hl hs0 trivial rfl (w := w) rfl (fun u hu => absurd hu (by simp [Pc.task]))
  | pop w t =>
    obtain ⟨rest, hr, hpc, rfl⟩ := hs
    have hnew : t ∉ popped tr := by
      rw [hr, List.nodup_append] at hnd
      exact fun ht => hnd.2.2 t ht t List.mem_cons_self rfl
    refine h.act hh w (fun u hu => .inl ?_) (fun v hv => .inl ?_)
      (fun v t hv hmu => lockDone_mu hl hs0 hv hmu) (fun u hu => .inl ?_)
      (fun u hu => .inl (by simpa [finished] using hu))
      (fun u hu => .inl (by simpa [failures] using hu))
    · by_cases hut : u = t
      · exact hut ▸ hnew
      · dsimp only at hu
        rw [setStatus_status, if_neg hut] at hu
        exact absurd rfl hu
    · dsimp only
      rw [setStatus_pc, setMu_pc, goto_pc, if_neg hv]
    · dsimp only at hu ⊢
      rw [setStatus_pc, setMu_pc, goto_pc, if_pos rfl] at hu ⊢
      obtain rfl : t = u := Option.some.inj hu
      rw [setStatus_status, if_pos rfl]
      rfl
  | hash w t ok =>
    cases ok with
    | true =>
      obtain ⟨hpc, rfl⟩ := hs
      refine h.move hh hl hs0 trivial rfl (w := w) rfl (fun u hu => .inl ?_)
      have hold := h.expects hpc (by simp) hu
      exact hold
    | false =>
      obtain ⟨hpc, rfl⟩ := hs
      exact h.write hh hl hs0 rfl (by rw [hpc]; rfl) rfl trivial (finished_same rfl)
        (.inr ⟨failures_append .., rfl⟩)
  | lookup w t hit =>
    cases hit with
    | true =>
      obtain ⟨hpc, rfl⟩ := hs
      refine h.write hh hl hs0 rfl (by rw [hpc]; rfl) rfl (.inl rfl) (finished_same rfl)
        (.inl ⟨failures_same rfl, h.running (w := w) ?_ ?_ ?_⟩) <;> simp [hpc, Pc.task, Pc.Expects]
    | false =>
      obtain ⟨hpc, rfl⟩ := hs
      refine h.move hh hl hs0 trivial rfl (w := w) rfl (fun u hu => .inl ?_)
      have hold := h.expects hpc (by simp) hu
      exact hold
  | command w t ok =>
    cases ok with
    | true =>
      obtain ⟨hpc, rfl⟩ := hs
      refine h.move hh hl hs0 trivial rfl (w := w) rfl (fun u hu => .inl ?_)
      have hold := h.expects hpc (by simp) hu
      exact hold
    | false =>
      obtain ⟨hpc, rfl⟩ := hs
      exact h.write hh hl hs0 rfl (by rw [hpc]; rfl) rfl trivial (finished_same rfl)
        (.inr ⟨failures_append .., rfl⟩)
  | record w t ok =>
    cases ok with
    | true =>
      obtain ⟨hpc, rfl⟩ := hs
      refine h.write hh hl hs0 rfl (by rw [hpc]; rfl) rfl (.inr rfl) (finished_same rfl)
        (.inl ⟨failures_same rfl, h.running (w := w) ?_ ?_ ?_⟩) <;> simp [hpc, Pc.task, Pc.Expects]
    | false =>
      obtain ⟨hpc, rfl⟩ := hs
      exact h.write hh hl hs0 rfl (by rw [hpc]; rfl) rfl trivial (finished_same rfl)
        (.inr ⟨failures_append .., rfl⟩)
  | hashFailed w t =>
    obtain ⟨hpc, rfl⟩ := hs
    exact h.move_broadcast hh hl hs0 trivial rfl (w := w) rfl
  | failed w t =>
    obtain ⟨hpc, rfl⟩ := hs
    have hmu := hl.owner w (by rw [hpc]; trivial)
    refine h.move hh hl hs0 trivial rfl (w := w) rfl (fun u hu => .inr ⟨?_, hmu⟩)
    obtain rfl : t = u := by simpa [Pc.task] using hu
    rfl
  | done w t =>
    obtain ⟨hpc, rfl⟩ := hs
    obtain ⟨pd, rd, hfold⟩ := foldl_releaseDependent (a := a) (dependentsOf a.list t)
      { (s.goto w .top).broadcast.setMu none with remaining := s.remaining - 1 }
    rw [hfold] at hs0 ⊢
    have hgood : (s.status t).Good := by
      rcases h.held w t (by rw [hpc]; rfl) with h1 | ⟨h1, -⟩
      · rw [hpc] at h1
        exact h1
      · rw [hpc] at h1
        exact absurd h1 (by simp)
    refine h.act hh w (fun u hu => absurd rfl hu) (fun v hv => ?_)
      (fun v t hv hmu => lockDone_mu hl hs0 hv hmu) (fun u hu => ?_) (fun u hu => ?_)
      (fun u hu => .inl (by simpa [failures] using hu))
    · dsimp only
      rw [setMu_pc, broadcast_pc, goto_pc, if_neg hv]
      split
      · exact .inr rfl
      · exact .inl rfl
    · dsimp only at hu
      rw [setMu_pc, broadcast_pc, goto_pc, if_pos rfl] at hu
      exact absurd hu (by simp [Pc.task])
    · rw [finished_append, List.mem_append] at hu
      rcases hu with hu | hu
      · exact .inl hu
      · obtain rfl : u = t := by simpa [finished] using hu
        exact .inr hgood
  | spurious w =>
    obtain ⟨-, rfl⟩ := hs
    exact h.move hh hl hs0 trivial rfl (w := w) rfl (fun u hu => absurd hu (by simp [Pc.task]))

/-! ## 2. Every run -/

theorem statusInv_run (ha : a.Ok) (h : Run (ParallelStep a) (parallelInit a) tr s) :
    StatusInv tr s :=
  Run.inv statusInv_init (fun _ _ _ _ hr hi hs =>
    hi.step (counts_run ha hr).1 (lockInv_run hr) (counts_run ha hr).2.nodup hs) h

/-- What is below a queued or dequeued task is completed. -/
theorem QueueInv.below (h : QueueInv a tr s) {t u : TaskPtr} (ht : t ∈ popped tr ++ s.ready)
    (hu : u ∈ a.subset) (hd : DependsOn a.list t u) : u ∈ finished tr := by
  by_contra hf
  have hpos : 0 < remDeps a.list a.subset (finished tr) t := remDeps_pos.mpr ⟨u, hu, hf, hd⟩
  rw [(h.ready_iff t (h.sub t ht)).mpr ht] at hpos
  exact absurd hpos (Nat.lt_irrefl 0)

/-- The same for what is reached from it, where the subset is closed. -/
theorem reach_finished (hh : HoldInv tr s) (hq : QueueInv a tr s)
    (hcl : ∀ t ∈ a.subset, ∀ u, DependsOn a.list t u → u ∈ a.subset) {t u : TaskPtr}
    (ht : t ∈ popped tr ++ s.ready) (hd : TransGen (DependsOn a.list) t u) : u ∈ finished tr := by
  induction hd with
  | single hd => exact hq.below ht (hcl t (hq.sub t ht) _ hd) hd
  | @tail b c _ hd ih =>
    have hb : b ∈ popped tr ++ s.ready :=
      List.mem_append_left _ (hh.ended.2 b (List.mem_append_left _ ih))
    exact hq.below hb (hcl b (hq.sub b hb) c hd) hd

theorem nameOf_inj {list : TaskList} (hn : (list.map Task.name).Nodup) {t u : TaskPtr}
    (ht : t < list.length) (h : nameOf list u = nameOf list t) : u = t := by
  have hname : nameOf list t = some list[t].name := by
    rw [nameOf, List.getElem?_eq_getElem ht, Option.map_some]
  have hu := findTask_of_nameOf hn (h.trans hname)
  exact Option.some.inj (hu.symm.trans (findTask_name hn ht))

/-- The arguments that `main`'s planning gives. -/
theorem parallelArgs_ok {moves : Nat → Bool} {fuel : Nat} {manifest : Bytes}
    {targets : List Bytes} {subset : List TaskPtr} (workers : Nat)
    (hn : ((parseManifest manifest).map Task.name).Nodup)
    (hc : collectNeededTasks moves fuel (parseManifest manifest) targets = .ok subset) :
    ParallelArgs.Ok ⟨parseManifest manifest, subset, workers⟩ := by
  obtain ⟨hnd, -, hmem, -⟩ := collectNeededTasks_ok hc
  have hlt : ∀ t ∈ subset, t < (parseManifest manifest).length := fun t ht => ((hmem t).mp ht).lt
  exact ⟨parseManifest_wellLinked manifest, hnd, hlt, fun t ht u hu => nameOf_inj hn (hlt t ht) hu⟩

/-- **Dependency safety.**  In every run no task is dequeued twice; when one is dequeued, all
that it depends on has ended well; and what depends on a task that fails, before or after, is
not dequeued at all. -/
theorem parallel_dependency_safety {moves : Nat → Bool} {fuel workers : Nat} {manifest : Bytes}
    {targets : List Bytes} {subset : List TaskPtr}
    (hn : ((parseManifest manifest).map Task.name).Nodup)
    (hc : collectNeededTasks moves fuel (parseManifest manifest) targets = .ok subset)
    {tr : List ParallelEvent} {s : ParallelState}
    (h : Run (ParallelStep ⟨parseManifest manifest, subset, workers⟩)
      (parallelInit ⟨parseManifest manifest, subset, workers⟩) tr s) :
    (popped tr).Nodup ∧
      (∀ tr₁ w t tr₂, tr = tr₁ ++ .pop w t :: tr₂ →
        ∃ s₁ s₂, Run (ParallelStep ⟨parseManifest manifest, subset, workers⟩)
            (parallelInit ⟨parseManifest manifest, subset, workers⟩) tr₁ s₁ ∧
          ParallelStep ⟨parseManifest manifest, subset, workers⟩ s₁ (.pop w t) s₂ ∧
          Run (ParallelStep ⟨parseManifest manifest, subset, workers⟩) s₂ tr₂ s ∧
          ∀ u, TransGen (DependsOn (parseManifest manifest)) t u →
            u ∈ finished tr₁ ∧ (s₁.status u = .skipped ∨ s₁.status u = .success)) ∧
      ∀ t u, TransGen (DependsOn (parseManifest manifest)) t u → u ∈ failures tr →
        t ∉ popped tr := by
  have ha := parallelArgs_ok workers hn hc
  obtain ⟨-, hpost, -, -⟩ := collectNeededTasks_ok hc
  have hcl : ∀ t ∈ subset, ∀ u, DependsOn (parseManifest manifest) t u → u ∈ subset :=
    fun t ht u hd => hpost.succ_mem ht hd
  refine ⟨?_, ?_, ?_⟩
  · exact (counts_run ha h).2.nodup.of_append_left
  · rintro tr₁ w t tr₂ rfl
    obtain ⟨s₁, s₂, h1, hs, h2⟩ := h.split_step
    refine ⟨s₁, s₂, h1, hs, h2, fun u hd => ?_⟩
    obtain ⟨hh, hq⟩ := counts_run ha h1
    obtain ⟨rest, hr, -, -⟩ := parallelStep_iff.mp hs
    have hu := reach_finished hh hq hcl (t := t) (by simp [hr]) hd
    exact ⟨hu, (statusInv_run ha h1).good u hu⟩
  · intro t u hd hf ht
    obtain ⟨hh, hq⟩ := counts_run ha h
    have hi := statusInv_run ha h
    have hgood := hi.good u (reach_finished hh hq hcl (List.mem_append_left _ ht) hd)
    rw [(hi.bad u hf).1] at hgood
    rcases hgood with hg | hg <;> exact absurd hg (by simp)

/-- The theorem at a run of two workers that takes `a` and then `b`, which depends on it. -/
theorem parallel_dependency_safety_chain :
    let manifest := ascii "task a \x7b\n\x7d\ntask b \x7b\n  deps = a\n\x7d\n"
    let a : ParallelArgs := ⟨parseManifest manifest, [0, 1], 2⟩
    let tr₁ : List ParallelEvent := [.spawn, .spawn, .lock 0, .pop 0 0, .hash 0 0 true,
      .lookup 0 0 false, .command 0 0 true, .record 0 0 true, .lock 0, .done 0 0, .lock 1]
    collectNeededTasks (fun _ => false) 3 (parseManifest manifest) [ascii "b"] = .ok [0, 1] ∧
      ∃ s₁, Run (ParallelStep a) (parallelInit a) tr₁ s₁ ∧
        (∃ s₂, ParallelStep a s₁ (.pop 1 1) s₂) ∧
        (s₁.status 0 = .skipped ∨ s₁.status 0 = .success) := by
  intro manifest a tr₁
  have hn : ((parseManifest manifest).map Task.name).Nodup := by decide
  have hc : collectNeededTasks (fun _ => false) 3 (parseManifest manifest) [ascii "b"]
      = .ok [0, 1] := by decide
  have hd : DependsOn (parseManifest manifest) 1 0 := ⟨ascii "a", by decide, by decide⟩
  have hends : (List.foldlM (parallelStep a) (parallelInit a)
      (tr₁ ++ [ParallelEvent.pop 1 1])).isSome := by
    decide +kernel
  obtain ⟨s, hs⟩ := Option.isSome_iff_exists.mp hends
  obtain ⟨-, hpop, -⟩ := parallel_dependency_safety hn hc (Run.of_foldlM hs)
  obtain ⟨s₁, s₂, h1, hstep, -, hdone⟩ := hpop tr₁ 1 1 [] rfl
  exact ⟨hc, s₁, h1, ⟨s₂, hstep⟩, (hdone 0 (.single hd)).2⟩

end ReproVM
