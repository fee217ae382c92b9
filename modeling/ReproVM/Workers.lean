/-
# The workers on one tree

The parallel executor with what its workers do to the tasks and to the tree: the steps of
`Parallel`, where the parts of running a task are those of `Parts`, each on the tree that the
steps before it have left.  Where no part fails, a run of the workers is a run of the parts
(`workers_parts`): a worker takes a task off the queue when all that the task depends on is
completed, which is when the parts of the task may start.
-/
import ReproVM.ParallelEnds
import ReproVM.ParallelProgress
import ReproVM.PartsOutcome

namespace ReproVM

open Lib (PostOrder Run)
open Relation

variable {a : ParallelArgs} {sys : System} {e : ParallelEvent} {tr : List ParallelEvent}

/-! ## 1. The system -/

structure Workers where
  ctx : ParallelState
  world : World

/-- What an event does to the tasks and the tree; `none` where a part does not end so. -/
def World.after (sys : System) (w : World) : ParallelEvent → Option World
  | .pop _ t => w.run t
  | .hash _ t ok => w.part t ok (hashPart w.fs)
  | .lookup _ t hit => w.part t hit (lookupPart w.fs)
  | .command _ t ok => w.part t ok fun task => .ok (commandPart sys w.fs task)
  | .record _ t ok => w.part t ok (recordPart w.fs)
  | _ => some w

def workersStep (a : ParallelArgs) (sys : System) (x : Workers) (e : ParallelEvent) :
    Option Workers := do
  let ctx ← parallelStep a x.ctx e
  let world ← x.world.after sys e
  return ⟨ctx, world⟩

/-- The step relation. -/
def WorkersStep (a : ParallelArgs) (sys : System) (x : Workers) (e : ParallelEvent) (y : Workers) :
    Prop :=
  workersStep a sys x e = some y

/-- The workers before they are created, over the tree `fs`. -/
def workersInit (a : ParallelArgs) (fs : FS) : Workers := ⟨parallelInit a, ⟨a.list, fs⟩⟩

abbrev WorkersRun (a : ParallelArgs) (sys : System) (fs : FS) : List ParallelEvent → Workers → Prop :=
  Run (WorkersStep a sys) (workersInit a fs)

/-- Nothing can happen but a wakeup without a signal. -/
def Workers.Stuck (a : ParallelArgs) (sys : System) (x : Workers) : Prop :=
  ∀ e y, WorkersStep a sys x e y → ∃ w, e = .spurious w

variable {x y : Workers}

theorem workersStep_iff : WorkersStep a sys x e y ↔
    ParallelStep a x.ctx e y.ctx ∧ x.world.after sys e = some y.world := by
  rw [WorkersStep, ParallelStep, workersStep]
  cases parallelStep a x.ctx e with
  | none => simp
  | some ctx =>
    cases x.world.after sys e with
    | none => simp
    | some world =>
      simp only [Option.bind_eq_bind, Option.bind_some, Option.pure_def, Option.some.injEq]
      constructor
      · rintro rfl
        exact ⟨rfl, rfl⟩
      · rintro ⟨rfl, rfl⟩
        rfl

/-- The context goes through a run of the executor. -/
theorem WorkersRun.ctx {fs : FS} (h : WorkersRun a sys fs tr x) :
    Run (ParallelStep a) (parallelInit a) tr x.ctx :=
  Run.map Workers.ctx (fun _ _ _ hs => (workersStep_iff.mp hs).1) h

/-! ## 2. One status -/

/-- The statuses of the context are those of the tasks. -/
def Workers.OneStatus (x : Workers) : Prop :=
  ∀ t task, x.world.tasks[t]? = some task → task.status = x.ctx.status t

section Status

variable {fs fs' : FS} {task task' : Task} {ok : Bool}

theorem hashPart_status (h : hashPart fs task = .ok (ok, task', fs')) :
    task'.status = if ok then task.status else .failed := by
  rw [hashPart] at h
  rcases hens : ensureTaskHash fs task with _ | ⟨ok, task₁, fs₁⟩ <;> rw [hens] at h <;> cases h
  rcases ensureTaskHash_or hens with ⟨rfl, -, rfl⟩ | ⟨rfl, computed, key, -, rfl⟩ <;> rfl

theorem lookupPart_status (h : lookupPart fs task = .ok (ok, task', fs')) :
    task'.status = if ok then .skipped else task.status := by
  rw [lookupPart] at h
  rcases htry : tryLoadTaskRecord fs task with _ | ⟨hit, task₁, fs₁⟩ <;> rw [htry] at h <;> cases h
  rcases tryLoadTaskRecord_or htry with ⟨hhit, rfl⟩ | ⟨rfl, r, rfl⟩
  · simp [hhit]
  · rfl

theorem commandPart_status {sys : System} (h : commandPart sys fs task = (ok, task', fs')) :
    task'.status = if ok then task.status else .failed := by
  unfold commandPart at h
  split at h
  split at h <;> cases h <;> rfl

theorem recordPart_status (h : recordPart fs task = .ok (ok, task', fs')) :
    task'.status = if ok then .success else .failed := by
  rw [recordPart] at h
  rcases hres : computeResultHash fs task with _ | ⟨task₁, fs₁⟩ <;> rw [hres] at h <;> cases h
  rfl

end Status

/-- A part writes the status of its task as the context does. -/
theorem World.part_status {w w' : World} {st st' : TaskPtr → TaskStatus} {t : TaskPtr} {ok : Bool}
    {f : Task → Except Fault (Bool × Task × FS)} (h : w.part t ok f = some w')
    (hst : ∀ u task, w.tasks[u]? = some task → task.status = st u)
    (hf : ∀ task task' fs, task.status = st t → f task = .ok (ok, task', fs) → task'.status = st' t)
    (hne : ∀ u, u ≠ t → st' u = st u) :
    ∀ u task, w'.tasks[u]? = some task → task.status = st' u := by
  obtain ⟨task, task', fs, htask, hpart, rfl⟩ := World.part_eq_some.mp h
  intro u task₁ hu
  by_cases hut : u = t
  · subst hut
    rw [List.getElem?_set_self (List.getElem?_eq_some_iff.mp htask).1] at hu
    rw [← Option.some.inj hu]
    exact hf task task' fs (hst u task htask) hpart
  · rw [List.getElem?_set_ne (Ne.symm hut)] at hu
    rw [hne u hut, hst u task₁ hu]

theorem Workers.OneStatus.step (h : x.OneStatus) (hs : WorkersStep a sys x e y) : y.OneStatus := by
  obtain ⟨hctx, hworld⟩ := workersStep_iff.mp hs
  rw [parallelStep_iff] at hctx
  have hstay : x.world.after sys e = some x.world → y.ctx.status = x.ctx.status → y.OneStatus := by
    intro hsame hst t task htask
    rw [← Option.some.inj (hsame.symm.trans hworld)] at htask
    rw [hst, h t task htask]
  have hwrite : ∀ {w t pc st}, y.ctx = (x.ctx.goto w pc).setStatus t st → ∀ u,
      y.ctx.status u = if u = t then st else x.ctx.status u := fun hy u => by
    rw [hy, setStatus_status]
    rfl
  have hkept : ∀ {w pc}, y.ctx = x.ctx.goto w pc → ∀ u, y.ctx.status u = x.ctx.status u :=
    fun hy u => by rw [hy]; rfl
  cases e with
  | spawn =>
    obtain ⟨i, -, -, hy⟩ := hctx
    exact hstay rfl (by rw [hy]; rfl)
  | join =>
    obtain ⟨i, -, -, -, hy⟩ := hctx
    exact hstay rfl (by rw [hy])
  | mainLock =>
    obtain ⟨-, -, hy⟩ := hctx
    exact hstay rfl (by rw [hy]; rfl)
  | mainBroadcast | hashFailed w t | failed w t | spurious w =>
    obtain ⟨-, hy⟩ := hctx
    exact hstay rfl (by rw [hy]; rfl)
  | lock w =>
    obtain ⟨-, pc, -, hy⟩ := hctx
    exact hstay rfl (by rw [hy]; rfl)
  | wait w | exit w | retry w =>
    obtain ⟨-, -, -, hy⟩ := hctx
    exact hstay rfl (by rw [hy]; rfl)
  | done w t =>
    obtain ⟨-, pd, rd, hy⟩ := ParallelEvent.Spec.done hctx
    exact hstay rfl (by rw [hy]; rfl)
  | pop w t =>
    obtain ⟨rest, -, -, hy⟩ := hctx
    have hst : ∀ u, y.ctx.status u = if u = t then .running else x.ctx.status u := fun u => by
      rw [hy]
      exact setStatus_status ..
    replace hworld : x.world.run t = some y.world := hworld
    rw [World.run] at hworld
    refine World.part_status hworld h (fun task task' fs _ hf => ?_) fun u hu => by rw [hst, if_neg hu]
    cases hf
    rw [hst, if_pos rfl]
  | hash w t ok =>
    cases ok <;> obtain ⟨-, hy⟩ := hctx
    · refine World.part_status hworld h (fun task task' fs _ hf => ?_) fun u hu => by
        rw [hwrite hy, if_neg hu]
      rw [hashPart_status hf, hwrite hy, if_pos rfl]
      rfl
    · refine World.part_status hworld h (fun task task' fs ht hf => ?_) fun u _ => hkept hy u
      rw [hashPart_status hf, hkept hy, ← ht]
      rfl
  | lookup w t hit =>
    cases hit <;> obtain ⟨-, hy⟩ := hctx
    · refine World.part_status hworld h (fun task task' fs ht hf => ?_) fun u _ => hkept hy u
      rw [lookupPart_status hf, hkept hy, ← ht]
      rfl
    · refine World.part_status hworld h (fun task task' fs _ hf => ?_) fun u hu => by
        rw [hwrite hy, if_neg hu]
      rw [lookupPart_status hf, if_pos rfl, hwrite hy, if_pos rfl]
  | command w t ok =>
    replace hworld : x.world.part t ok (fun task => .ok (commandPart sys x.world.fs task)) =
      some y.world := hworld
    cases ok <;> obtain ⟨-, hy⟩ := hctx
    · refine World.part_status hworld h (fun task task' fs _ hf => ?_) fun u hu => by
        rw [hwrite hy, if_neg hu]
      rw [commandPart_status (Except.ok.inj hf), hwrite hy, if_pos rfl]
      rfl
    · refine World.part_status hworld h (fun task task' fs ht hf => ?_) fun u _ => hkept hy u
      rw [commandPart_status (Except.ok.inj hf), hkept hy, ← ht]
      rfl
  | record w t ok =>
    have hst : ∀ u, y.ctx.status u =
        if u = t then (if ok then .success else .failed) else x.ctx.status u := by
      cases ok <;> obtain ⟨-, hy⟩ := hctx <;> exact hwrite hy
    refine World.part_status hworld h (fun task task' fs _ hf => ?_) fun u hu => by rw [hst, if_neg hu]
    rw [recordPart_status hf, hst, if_pos rfl]

/-- **One status.** -/
theorem WorkersRun.oneStatus {fs : FS} (hfresh : ∀ task ∈ a.list, FreshTask task)
    (h : WorkersRun a sys fs tr x) : x.OneStatus :=
  h.preserve (fun _ _ _ hx hs => hx.step hs) fun _ _ htask =>
    (hfresh _ (List.mem_of_getElem? htask)).status

/-! ## 3. The stages of the tasks -/

/-- The stage of the task that a worker holds where nothing has failed. -/
def Pc.stage : Pc → Option Stage
  | .hash _ => some .todo
  | .lookup _ => some .hashed
  | .command _ => some .missed
  | .record _ => some .ran
  | .lockDone _ | .done _ => some .done
  | _ => none

theorem Pc.stage_locked {p q : Pc} (h : p.locked = some q) {t : TaskPtr} (ht : q.task = some t) :
    q.stage = p.stage ∧ p.task = some t := by
  cases p <;> simp only [Pc.locked, reduceCtorEq, Option.some.injEq] at h <;> subst h <;>
    exact ⟨rfl, ht⟩

/-- The workers and the parts of a job. -/
structure Matches (tr : List ParallelEvent) (x : Workers) (p : Parts) : Prop where
  world : p.world = x.world
  held : ∀ w t, (x.ctx.pc w).task = some t → (x.ctx.pc w).stage = some (p.stage t)
  finished : ∀ t ∈ finished tr, p.stage t = .done
  waiting : ∀ t, t ∉ popped tr → p.stage t = .todo
  kept : hashFailures tr = []

variable {p p' : Parts} {w : Nat} {t : TaskPtr} {pc : Pc}

theorem matches_init (fs : FS) : Matches [] (workersInit a fs) (.init ⟨a.list, fs⟩) where
  world := rfl
  held w t h := by cases h
  finished t h := by cases h
  waiting _ _ := rfl
  kept := rfl

/-- What one step has to do: worker `w` moves, and only the stage of its task changes. -/
theorem Matches.act (h : Matches tr x p) (hh : HoldInv tr x.ctx) (hworld : p'.world = y.world)
    (hstage : ∀ u, (x.ctx.pc w).task ≠ some u → p'.stage u = p.stage u)
    (hothers : ∀ v, v ≠ w → y.ctx.pc v = x.ctx.pc v ∨ (y.ctx.pc v).task = none)
    (hself : ∀ u, (y.ctx.pc w).task = some u → (y.ctx.pc w).stage = some (p'.stage u))
    (hfin : ∀ u ∈ ReproVM.finished (tr ++ [e]), u ∈ ReproVM.finished tr ∨ p'.stage u = .done)
    (hkept : hashFailures [e] = []) : Matches (tr ++ [e]) y p' where
  world := hworld
  held v u hu := by
    by_cases hv : v = w
    · subst hv
      exact hself u hu
    · rcases hothers v hv with hsame | hnone
      · rw [hsame] at hu ⊢
        rw [h.held v u hu, hstage u fun hw => hv (hh.unique v w u hu hw)]
      · rw [hnone] at hu
        cases hu
  finished u hu := by
    rcases hfin u hu with hold | hnew
    · rw [hstage u fun hw => (hh.held w u hw).2.1 hold]
      exact h.finished u hold
    · exact hnew
  waiting u hu := by
    rw [popped_append, List.mem_append, not_or] at hu
    rw [hstage u fun hw => hu.1 (hh.held w u hw).1]
    exact h.waiting u hu.1
  kept := by rw [hashFailures_append, h.kept, hkept, List.append_nil]

/-- A step of one worker that changes no stage. -/
theorem Matches.move (h : Matches tr x p) (hh : HoldInv tr x.ctx) (hworld : p'.world = y.world)
    (hstage : p'.stage = p.stage) {q : Pc} (hpc : y.ctx.pc = (x.ctx.goto w q).pc)
    (hself : ∀ u, q.task = some u → q.stage = some (p.stage u)) (hfin : ReproVM.finished [e] = [])
    (hkept : hashFailures [e] = []) : Matches (tr ++ [e]) y p' := by
  refine h.act (w := w) hh hworld (fun u _ => congrFun hstage u) (fun v hv => .inl ?_) ?_ ?_ hkept
  · rw [hpc, goto_pc, if_neg hv]
  · intro u hu
    rw [hpc, goto_pc, if_pos rfl] at hu ⊢
    rw [hstage]
    exact hself u hu
  · intro u hu
    rw [finished_append, hfin, List.append_nil] at hu
    exact .inl hu

/-- A part of a task that is held. -/
theorem Matches.part (h : Matches tr x p) (hh : HoldInv tr x.ctx) {st : Stage}
    (hpc : y.ctx.pc = (x.ctx.goto w pc).pc) (ht : (x.ctx.pc w).task = some t)
    (hself : pc.task = some t ∧ pc.stage = some st) (hfin : ReproVM.finished [e] = [])
    (hkept : hashFailures [e] = []) : Matches (tr ++ [e]) y (p.to t st y.world) := by
  refine h.act (w := w) hh rfl (fun u hu => Parts.to_stage_ne _ _ _ ?_) (fun v hv => .inl ?_) ?_ ?_
    hkept
  · rintro rfl
    exact hu ht
  · rw [hpc, goto_pc, if_neg hv]
  · intro u hu
    rw [hpc, goto_pc, if_pos rfl] at hu ⊢
    obtain rfl := Option.some.inj (hself.1.symm.trans hu)
    rw [hself.2, Parts.to_stage_self]
  · intro u hu
    rw [finished_append, hfin, List.append_nil] at hu
    exact .inl hu

/-- A step of the main thread that changes nothing for the workers. -/
theorem Matches.still (h : Matches tr x p) (hh : HoldInv tr x.ctx) (hworld : y.world = x.world)
    (hpc : ∀ v, y.ctx.pc v = x.ctx.pc v ∨ (y.ctx.pc v).task = none) (hfin : ReproVM.finished [e] = [])
    (hkept : hashFailures [e] = []) : Matches (tr ++ [e]) y p := by
  refine h.act (w := 0) hh (h.world.trans hworld.symm) (fun _ _ => rfl) (fun v _ => hpc v) ?_ ?_ hkept
  · intro u hu
    rcases hpc 0 with hsame | hnone
    · rw [hsame] at hu ⊢
      exact h.held 0 u hu
    · rw [hnone] at hu
      cases hu
  · intro u hu
    rw [finished_append, hfin, List.append_nil] at hu
    exact .inl hu

/-! ## 4. A run of the workers is a run of the parts -/

/-- What the executor is given for a job. -/
abbrev Job.args (j : Job) (subset : List TaskPtr) (workers : Nat) : ParallelArgs :=
  ⟨j.list, subset, workers⟩

/-- It is given the tasks of the job. -/
structure Job.Given (j : Job) (subset : List TaskPtr) (workers : Nat) : Prop where
  ok : j.Ok
  args : (j.args subset workers).Ok
  mem : ∀ t, t ∈ subset ↔ t ∈ j.order

variable {j : Job} {subset : List TaskPtr} {workers : Nat}

theorem Job.Given.closed (hg : j.Given subset workers) :
    ∀ t ∈ subset, ∀ u, DependsOn j.list t u → u ∈ subset := fun t ht u hd =>
  (hg.mem u).mpr (hg.ok.array.sorted.succ_mem ((hg.mem t).mp ht) hd)

/-- A task that is held is one of the job, and all that it depends on is done. -/
theorem Matches.below (h : Matches tr x p) (hg : j.Given subset workers) (hh : HoldInv tr x.ctx)
    (hq : QueueInv (j.args subset workers) tr x.ctx) (ht : (x.ctx.pc w).task = some t) :
    t ∈ j.order ∧ ∀ u, TransGen (DependsOn j.list) t u → p.stage u = .done := by
  have hp := List.mem_append_left x.ctx.ready (hh.held w t ht).1
  exact ⟨(hg.mem t).mp (hq.sub t hp), fun u hu => h.finished u (reach_finished hh hq hg.closed hp hu)⟩

theorem Matches.stage_eq (h : Matches tr x p) (hpc : x.ctx.pc w = pc) {st : Stage}
    (ht : pc.task = some t) (hst : pc.stage = some st) : p.stage t = st := by
  subst hpc
  exact Option.some.inj ((h.held w t ht).symm.trans hst)

/-- **One step** of the workers in which nothing fails is a part of a task, or none. -/
theorem Matches.step (h : Matches tr x p) (hg : j.Given subset workers) (hh : HoldInv tr x.ctx)
    (hq : QueueInv (j.args subset workers) tr x.ctx)
    (hs : WorkersStep (j.args subset workers) j.sys x e y) (hok : failures [e] = []) :
    ∃ l p', Run (PartStep j.sys j.list j.order) p l p' ∧ Matches (tr ++ [e]) y p' := by
  obtain ⟨hctx, hworld⟩ := workersStep_iff.mp hs
  rw [parallelStep_iff] at hctx
  have hstay : some x.world = some y.world → y.world = x.world := fun h => (Option.some.inj h).symm
  have hnone : ∀ {q : Pc}, q.task = none → ∀ u, q.task = some u → q.stage = some (p.stage u) :=
    fun hq u hu => by simp [hq] at hu
  cases e with
  | spawn =>
    obtain ⟨i, -, -, hy⟩ := hctx
    exact ⟨[], p, .refl, h.move (w := i) (q := .top) hh (h.world.trans (hstay hworld).symm) rfl
      (by rw [hy]) (hnone rfl) rfl rfl⟩
  | mainLock =>
    obtain ⟨-, -, hy⟩ := hctx
    exact ⟨[], p, .refl, h.still hh (hstay hworld) (fun v => .inl (by rw [hy]; rfl)) rfl rfl⟩
  | mainBroadcast =>
    obtain ⟨-, hy⟩ := hctx
    refine ⟨[], p, .refl, h.still hh (hstay hworld) (fun v => ?_) rfl rfl⟩
    rw [hy, setMu_pc, broadcast_pc]
    split
    · exact .inr rfl
    · exact .inl rfl
  | join =>
    obtain ⟨i, -, -, -, hy⟩ := hctx
    exact ⟨[], p, .refl, h.still hh (hstay hworld) (fun v => .inl (by rw [hy])) rfl rfl⟩
  | lock w =>
    obtain ⟨-, pc, hpc, hy⟩ := hctx
    refine ⟨[], p, .refl, h.move (w := w) (q := pc) hh (h.world.trans (hstay hworld).symm) rfl
      (by rw [hy]; rfl) (fun u hu => ?_) rfl rfl⟩
    obtain ⟨hst, hu⟩ := Pc.stage_locked hpc hu
    rw [hst, h.held w u hu]
  | wait w | exit w | retry w =>
    obtain ⟨-, -, -, hy⟩ := hctx
    exact ⟨[], p, .refl, h.move (w := w) hh (h.world.trans (hstay hworld).symm) rfl
      (by rw [hy]; rfl) (hnone rfl) rfl rfl⟩
  | spurious w =>
    obtain ⟨-, hy⟩ := hctx
    exact ⟨[], p, .refl, h.move (w := w) hh (h.world.trans (hstay hworld).symm) rfl
      (by rw [hy]) (hnone rfl) rfl rfl⟩
  | pop w t =>
    obtain ⟨rest, hr, hpc, hy⟩ := hctx
    have hnew : t ∉ popped tr := by
      have hnd := hq.nodup
      rw [hr, List.nodup_append] at hnd
      exact fun ht => hnd.2.2 t ht t List.mem_cons_self rfl
    have htodo := h.waiting t hnew
    have ht : t ∈ j.order := (hg.mem t).mp (hq.sub t (by simp [hr]))
    replace hworld : p.world.run t = some y.world := by rwa [h.world]
    refine ⟨[t], ⟨p.stage, y.world⟩, .single (.mark ht (by simp [htodo]) hworld), ?_⟩
    refine h.move (w := w) (q := .hash t) hh rfl rfl (by rw [hy]; rfl) (fun u hu => ?_) rfl rfl
    obtain rfl : t = u := Option.some.inj hu
    rw [htodo]
    rfl
  | hash w t ok =>
    cases ok with
    | false => cases hok
    | true =>
      obtain ⟨hpc, hy⟩ := hctx
      obtain ⟨ht, hdeps⟩ := h.below hg hh hq (w := w) (t := t) (by rw [hpc]; rfl)
      replace hworld : p.world.part t true (hashPart p.world.fs) = some y.world := by rwa [h.world]
      exact ⟨[t], _, .single (.hash ht (h.stage_eq hpc rfl rfl) hdeps hworld),
        h.part (w := w) hh (by rw [hy]) (by rw [hpc]; rfl) ⟨rfl, rfl⟩ rfl rfl⟩
  | lookup w t hit =>
    cases hit with
    | false =>
      obtain ⟨hpc, hy⟩ := hctx
      obtain ⟨ht, -⟩ := h.below hg hh hq (w := w) (t := t) (by rw [hpc]; rfl)
      replace hworld : p.world.part t false (lookupPart p.world.fs) = some y.world := by rwa [h.world]
      exact ⟨[t], _, .single (.miss ht (h.stage_eq hpc rfl rfl) hworld),
        h.part (w := w) hh (by rw [hy]) (by rw [hpc]; rfl) ⟨rfl, rfl⟩ rfl rfl⟩
    | true =>
      obtain ⟨hpc, hy⟩ := hctx
      obtain ⟨ht, -⟩ := h.below hg hh hq (w := w) (t := t) (by rw [hpc]; rfl)
      replace hworld : p.world.part t true (lookupPart p.world.fs) = some y.world := by rwa [h.world]
      exact ⟨[t], _, .single (.hit ht (h.stage_eq hpc rfl rfl) hworld),
        h.part (w := w) hh (by rw [hy]; rfl) (by rw [hpc]; rfl) ⟨rfl, rfl⟩ rfl rfl⟩
  | command w t ok =>
    cases ok with
    | false => cases hok
    | true =>
      obtain ⟨hpc, hy⟩ := hctx
      obtain ⟨ht, -⟩ := h.below hg hh hq (w := w) (t := t) (by rw [hpc]; rfl)
      replace hworld : p.world.part t true (fun task => .ok (commandPart j.sys p.world.fs task)) =
        some y.world := by rwa [h.world]
      exact ⟨[t], _, .single (.command ht (h.stage_eq hpc rfl rfl) hworld),
        h.part (w := w) hh (by rw [hy]) (by rw [hpc]; rfl) ⟨rfl, rfl⟩ rfl rfl⟩
  | record w t ok =>
    cases ok with
    | false => cases hok
    | true =>
      obtain ⟨hpc, hy⟩ := hctx
      obtain ⟨ht, -⟩ := h.below hg hh hq (w := w) (t := t) (by rw [hpc]; rfl)
      replace hworld : p.world.part t true (recordPart p.world.fs) = some y.world := by rwa [h.world]
      exact ⟨[t], _, .single (.record ht (h.stage_eq hpc rfl rfl) hworld),
        h.part (w := w) hh (by rw [hy]; rfl) (by rw [hpc]; rfl) ⟨rfl, rfl⟩ rfl rfl⟩
  | hashFailed w t | failed w t =>
    -- nothing has failed, so no worker stands there
    have hheld := h.held w t (by rw [hctx.1]; rfl)
    rw [hctx.1] at hheld
    cases hheld
  | done w t =>
    obtain ⟨hpc, pd, rd, hy⟩ := ParallelEvent.Spec.done hctx
    have hdone := h.stage_eq (t := t) hpc rfl rfl
    refine ⟨[], p, .refl, h.act (w := w) hh (h.world.trans (hstay hworld).symm) (fun _ _ => rfl)
      (fun v hv => ?_) (fun u hu => ?_) (fun u hu => ?_) rfl⟩
    · rw [hy]
      dsimp only
      rw [setMu_pc, broadcast_pc, goto_pc, if_neg hv]
      split
      · exact .inr rfl
      · exact .inl rfl
    · rw [hy] at hu
      dsimp only at hu
      rw [setMu_pc, broadcast_pc, goto_pc, if_pos rfl] at hu
      cases hu
    · rw [finished_append, List.mem_append] at hu
      refine hu.imp_right fun hu => ?_
      obtain rfl : u = t := List.mem_singleton.mp hu
      exact hdone

theorem failures_snoc (h : failures (tr ++ [e]) = []) : failures tr = [] ∧ failures [e] = [] := by
  rwa [failures_append, List.append_eq_nil_iff] at h

/-- **A run of the workers** in which nothing fails is a run of the parts. -/
theorem workers_parts (hg : j.Given subset workers)
    (h : WorkersRun (j.args subset workers) j.sys j.fs tr x) (hok : failures tr = []) :
    ∃ l p, PartRun j l p ∧ Matches tr x p := by
  have hsim : ∃ l p, PartRun j l p ∧ (failures tr = [] → Matches tr x p) := by
    refine Run.simulate (R := fun tr x p => failures tr = [] → Matches tr x p)
      (fun _ => matches_init _) ?_ h
    intro tr x e y p hr hp hs
    by_cases hok : failures (tr ++ [e]) = []
    · obtain ⟨hh, hq⟩ := counts_run hg.args (WorkersRun.ctx hr)
      obtain ⟨l, p', hl, hp'⟩ := (hp (failures_snoc hok).1).step hg hh hq hs (failures_snoc hok).2
      exact ⟨l, p', hl, fun _ => hp'⟩
    · exact ⟨[], p, .refl, fun h => absurd h hok⟩
  obtain ⟨l, p, hl, hp⟩ := hsim
  exact ⟨l, p, hl, hp hok⟩

end ReproVM
