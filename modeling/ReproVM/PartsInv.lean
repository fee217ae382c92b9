/-
# What holds between two parts

The parts of different tasks come in any order.  What is done by a part stays: a task that is
hashed keeps its inputs and its key, one that is done keeps its outputs, its record and its
result, because the other tasks write at other places (`Job.At.grow`), and because nothing that
is read by a hashed task is still to be written (`PartInv.deps`).  Where a command ran, what it
saw is what is there now, but for its own outputs, which were as at the start (`CommandRan`).
-/
import ReproVM.Parts

namespace ReproVM

open Bytes (ascii)
open Lib (PostOrder Run)
open Relation

/-! ## 1. Jobs -/

/-- What a run starts from. -/
structure Job where
  list : TaskList
  order : List TaskPtr
  fs : FS
  sys : System

/-- Two trees in which the command of a task sees the same: its inputs, its outputs, and where
the directories are. -/
structure SeesSame (task : Task) (fs fs' : FS) : Prop where
  cwd : fs'.cwd = fs.cwd
  inputs : ∀ s ∈ task.inputs, fs'.read s = fs.read s
  places : ∀ p ∈ task.places fs.cwd, fs'.node p = fs.node p
  dir : ∀ p, ¬ Inside fs.cwd p → (fs'.node p = some .dir ↔ fs.node p = some .dir)

/-- The status of a command, and the outputs that it leaves, depend on what it sees. -/
def Deterministic (sys : System) (list : TaskList) (order : List TaskPtr) (cwd : Path) : Prop :=
  ∀ t ∈ order, ∀ task, list[t]? = some task → ∀ fs fs' : FS, fs.cwd = cwd →
    SeesSame task fs fs' → (system sys task.cmd fs').1 = (system sys task.cmd fs).1 ∧
      ∀ p ∈ task.places cwd,
        (system sys task.cmd fs').2.node p = (system sys task.cmd fs).2.node p

/-- No two tasks have one command. -/
def DistinctCommands (list : TaskList) (order : List TaskPtr) : Prop :=
  ∀ t ∈ order, ∀ u ∈ order, ∀ task task', list[t]? = some task → list[u]? = some task' →
    task.cmd.getD [] = task'.cmd.getD [] → t = u

structure Job.Ok (j : Job) : Prop where
  fresh : ∀ task ∈ j.list, FreshTask task
  line : ∀ task ∈ j.list, 10 ∉ task.cmd.getD []
  lt : ∀ t ∈ j.order, t < j.list.length
  array : TaskArray j.list j.order j.fs.cwd
  commands : DistinctCommands j.list j.order
  sound : Sound j.fs
  cacheDir : j.fs.node (cacheDir j.fs.cwd) = some .dir
  writes : CommandsWrite (fun _ => j.sys) j.list j.order j.fs.cwd
  deterministic : Deterministic j.sys j.list j.order j.fs.cwd

variable {j : Job} {x y : Parts} {w w' : World} {t u : TaskPtr} {task : Task} {fs fs' : FS}
  {ps : Set Path}

/-! ## 2. Tasks -/

/-- The inputs are in the store, and the text fits. -/
structure Keyed (fs : FS) (task : Task) : Prop where
  inputs : ∀ s ∈ task.inputs, Hashed fs s
  length : (textAt fs task).length < 4096

/-- The command of the task ended with 0 in the tree `fs₁`, which it left as `fs₂`. -/
structure CommandRan (j : Job) (fs : FS) (task : Task) (fs₁ fs₂ : FS) : Prop where
  run : system j.sys task.cmd fs₁ = (0, fs₂)
  cwd : fs₁.cwd = j.fs.cwd
  inputs : ∀ s ∈ task.inputs, fs₁.read s = fs.read s
  before : ∀ p ∈ task.places j.fs.cwd, fs₁.node p = j.fs.node p
  dir : ∀ p, ¬ Inside j.fs.cwd p → (fs₁.node p = some .dir ↔ j.fs.node p = some .dir)
  after : ∀ p ∈ task.places j.fs.cwd, fs.node p = fs₂.node p

/-- There was no record of the task at the start. -/
def Job.Unrecorded (j : Job) (fs : FS) (task : Task) : Prop :=
  j.fs.node (recordPath j.fs.cwd (keyAt fs task)) = none

/-- A task that is being run: there is no record of it, and there was none. -/
structure Job.Running (j : Job) (w : World) (t : TaskPtr) (task : Task) : Prop where
  keyed : Keyed w.fs task
  unrecorded : j.Unrecorded w.fs task
  record : w.fs.node (recordPath j.fs.cwd (keyAt w.fs task)) = none
  task : ∃ st, w.tasks[t]? = some { hashedTask w.fs task with status := st }

/-- The task is done, by the record `r`. -/
structure Skipped (j : Job) (w : World) (t : TaskPtr) (task : Task) (content : Bytes) (r : Record) :
    Prop where
  read : w.fs.read (metaPath (keyAt w.fs task)) = some content
  record : readRecord content = .ok r
  intact : ∀ entry ∈ r.outputs, Intact w.fs entry.2
  outputs : ∀ p ∈ task.places j.fs.cwd,
    w.fs.node p = (j.fs.setFiles (restoreWrites w.fs task.outputs r.outputs)).node p
  task : w.tasks[t]? =
    some { hashedTask w.fs task with resultHash := some r.resultHash, status := .skipped }

/-- The task is done, by its command. -/
structure Succeeded (j : Job) (w : World) (t : TaskPtr) (task : Task) : Prop where
  ran : ∃ fs₁ fs₂, CommandRan j w.fs task fs₁ fs₂
  unrecorded : j.Unrecorded w.fs task
  length : (resultText w.fs task).length < 4096
  record : w.fs.node (recordPath j.fs.cwd (keyAt w.fs task)) =
    some (.file (recordText (keyAt w.fs task) (recordOf w.fs task)))
  stored : ∀ out ∈ task.outputs, ∀ data, w.fs.read out = some data → InStore w.fs data
  task : w.tasks[t]? = some { hashedTask w.fs task with
    resultHash := some (resultAt w.fs task), status := .success }

/-- What is behind a task at a stage. -/
def Job.At (j : Job) (w : World) (t : TaskPtr) (task : Task) : Stage → Prop
  | .todo => ∃ st, w.tasks[t]? = some { task with status := st }
  | .hashed => Keyed w.fs task ∧ ∃ st, w.tasks[t]? = some { hashedTask w.fs task with status := st }
  | .missed => j.Running w t task
  | .ran => j.Running w t task ∧ ∃ fs₁ fs₂, CommandRan j w.fs task fs₁ fs₂
  | .done => Keyed w.fs task ∧ ((∃ content r, Skipped j w t task content r) ∨ Succeeded j w t task)

/-! ## 3. What others do -/

/-- The inputs, where nothing is written to them. -/
theorem Keyed.grow (h : Keyed fs task) (hg : Grows ps fs fs')
    (hin : ∀ s ∈ task.inputs, resolve fs.cwd s ∉ ps) :
    Keyed fs' task ∧ textAt fs' task = textAt fs task ∧
      ∀ s ∈ task.inputs, fs'.read s = fs.read s := by
  have htext : textAt fs' task = textAt fs task :=
    textAt_congr rfl fun s hs => (hg.hashed (hin s hs) (h.inputs s hs)).2
  refine ⟨⟨fun s hs => (hg.hashed (hin s hs) (h.inputs s hs)).1, htext ▸ h.length⟩, htext,
    fun s hs => ?_⟩
  obtain ⟨data, hr, -⟩ := h.inputs s hs
  rw [hr, hg.read_eq (hin s hs) hr]

/-- The outputs, where nothing is written to them. -/
theorem Grows.read_outputs (hg : Grows ps fs fs') (ho : OutsideAll fs.cwd task.outputs)
    (hout : ∀ p ∈ task.places fs.cwd, p ∉ ps) :
    (∀ p ∈ task.places fs.cwd, fs'.node p = fs.node p) ∧
      ∀ out ∈ task.outputs, fs'.read out = fs.read out := by
  have hnode : ∀ p ∈ task.places fs.cwd, fs'.node p = fs.node p := by
    rintro p ⟨out, hmem, rfl⟩
    exact hg.outside _ (ho out hmem) (hout _ ⟨out, hmem, rfl⟩)
  exact ⟨hnode, fun out hmem => FS.read_congr hg.cwd (hnode _ ⟨out, hmem, rfl⟩)⟩

/-- **What is behind a task stays** while other tasks go on. -/
theorem Job.At.grow {st : Stage} (h : j.At w t task st) (hcwd : w.fs.cwd = j.fs.cwd)
    (hg : Grows ps w.fs w'.fs) (ho : OutsideAll w.fs.cwd task.outputs)
    (hin : st ≠ .todo → ∀ s ∈ task.inputs, resolve w.fs.cwd s ∉ ps)
    (hout : ∀ p ∈ task.places w.fs.cwd, p ∉ ps)
    (hrec : st = .missed ∨ st = .ran → w'.fs.node (recordPath j.fs.cwd (keyAt w.fs task)) =
      w.fs.node (recordPath j.fs.cwd (keyAt w.fs task)))
    (htask : w'.tasks[t]? = w.tasks[t]?) : j.At w' t task st := by
  obtain ⟨hnode, hread⟩ := hg.read_outputs ho hout
  rw [hcwd] at hnode
  have hkey : st ≠ .todo → Keyed w.fs task → Keyed w'.fs task ∧
      keyAt w'.fs task = keyAt w.fs task ∧ hashedTask w'.fs task = hashedTask w.fs task ∧
        ∀ s ∈ task.inputs, w'.fs.read s = w.fs.read s := fun hst hk => by
    obtain ⟨h1, h2, h3⟩ := hk.grow hg (hin hst)
    have h4 : keyAt w'.fs task = keyAt w.fs task := congrArg blobHash h2
    exact ⟨h1, h4, by rw [hashedTask, hashedTask, h4], h3⟩
  have hran : (∀ s ∈ task.inputs, w'.fs.read s = w.fs.read s) →
      (∃ fs₁ fs₂, CommandRan j w.fs task fs₁ fs₂) → ∃ fs₁ fs₂, CommandRan j w'.fs task fs₁ fs₂ := by
    rintro hs ⟨fs₁, fs₂, h1, h2, h3, h4, h5, h6⟩
    exact ⟨fs₁, fs₂, h1, h2, fun s hmem => (h3 s hmem).trans (hs s hmem).symm, h4, h5,
      fun p hp => (hnode p hp).trans (h6 p hp)⟩
  have hrunning : st = .missed ∨ st = .ran → j.Running w t task → j.Running w' t task := by
    rintro hst ⟨hk, hu, hnone, st', hst'⟩
    obtain ⟨h1, h2, h3, -⟩ := hkey (by rintro rfl; simp at hst) hk
    exact ⟨h1, by rwa [Job.Unrecorded, h2], by rw [h2, hrec hst, hnone], st',
      by rw [h3, htask, hst']⟩
  cases st with
  | todo =>
    obtain ⟨st, hst⟩ := h
    exact ⟨st, htask.trans hst⟩
  | hashed =>
    obtain ⟨hk, st, hst⟩ := h
    obtain ⟨h1, -, h3, -⟩ := hkey (by simp) hk
    exact ⟨h1, st, by rw [h3, htask, hst]⟩
  | missed => exact hrunning (.inl rfl) h
  | ran =>
    obtain ⟨h, hr⟩ := h
    exact ⟨hrunning (.inr rfl) h, hran (hkey (by simp) h.keyed).2.2.2 hr⟩
  | done =>
    obtain ⟨hk, h⟩ := h
    obtain ⟨h1, h2, h3, h4⟩ := hkey (by simp) hk
    refine ⟨h1, ?_⟩
    rcases h with ⟨content, r, hs⟩ | hs
    · refine .inl ⟨content, r, ?_, hs.record, fun entry he => hg.intact (hs.intact entry he),
        fun p hp => ?_, by rw [h3, htask, hs.task]⟩
      · rw [h2]
        exact hg.read_record (isHash_keyAt w.fs task) hs.read
      · rw [hnode p hp, hs.outputs p hp, hg.restoreWrites_eq ho hs.intact]
    · have hrec := hs.record
      refine .inr ⟨hran h4 hs.ran, ?_, ?_, ?_, fun out hmem data hd => ?_, ?_⟩
      · rw [Job.Unrecorded, h2]
        exact hs.unrecorded
      · rw [resultText_congr hread]
        exact hs.length
      · rw [h2, recordOf_congr hread]
        refine hg.keep _ _ ?_ hrec
        rw [hcwd]
        exact inside_recordPath ..
      · rw [hread out hmem] at hd
        exact hg.inStore (hs.stored out hmem data hd)
      · rw [h3, htask, hs.task, resultAt, resultAt, resultText_congr hread]

/-! ## 4. The invariant -/

/-- The places of the tasks whose outputs have been written. -/
def Parts.written (j : Job) (x : Parts) : Set Path :=
  {p | ∃ t ∈ j.order, (x.stage t = .ran ∨ x.stage t = .done) ∧
    ∃ task, j.list[t]? = some task ∧ p ∈ task.places j.fs.cwd}

structure PartInv (j : Job) (x : Parts) : Prop where
  grows : Grows (x.written j) j.fs x.world.fs
  sound : Sound x.world.fs
  tasks : ∀ t ∈ j.order, ∀ task, j.list[t]? = some task → j.At x.world t task (x.stage t)
  others : ∀ t, t ∉ j.order → x.world.tasks[t]? = j.list[t]?
  records : ∀ key, x.world.fs.node (recordPath j.fs.cwd key) = j.fs.node (recordPath j.fs.cwd key) ∨
    ∃ t ∈ j.order, ∃ task, j.list[t]? = some task ∧ x.stage t = .done ∧
      Succeeded j x.world t task ∧ key = keyAt x.world.fs task
  deps : ∀ t ∈ j.order, x.stage t ≠ .todo → ∀ u, TransGen (DependsOn j.list) t u →
    x.stage u = .done

theorem partInv_init (hj : j.Ok) : PartInv j (.init ⟨j.list, j.fs⟩) where
  grows := .refl _ _
  sound := hj.sound
  tasks _ _ task htask := ⟨task.status, htask⟩
  others _ _ := rfl
  records _ := .inl rfl
  deps _ _ h := absurd rfl h

theorem Parts.to_stage_self (x : Parts) (t : TaskPtr) (st : Stage) (w : World) :
    (x.to t st w).stage t = st :=
  Function.update_self ..

theorem Parts.to_stage_ne (x : Parts) (st : Stage) (w : World) (h : u ≠ t) :
    (x.to t st w).stage u = x.stage u :=
  Function.update_of_ne h ..

/-- A task that is not done is not among those that another one waits for. -/
theorem Parts.to_stage_done (hst : x.stage t ≠ .done) (h : x.stage u = .done) (st : Stage)
    (w : World) : (x.to t st w).stage u = .done := by
  rw [Parts.to_stage_ne, h]
  rintro rfl
  exact hst h

/-- No task that has been hashed reads an output of one that is not done. -/
theorem PartInv.not_reads (h : PartInv j x) (hj : j.Ok) (ht : t ∈ j.order)
    (htask : j.list[t]? = some task) (hst : x.stage t ≠ .done) {task' : Task} (hu : u ∈ j.order)
    (htask' : j.list[u]? = some task') (hne : u ≠ t) (hstu : x.stage u ≠ .todo) :
    ∀ s ∈ task'.inputs, resolve j.fs.cwd s ∉ task.places j.fs.cwd := fun s hs hp =>
  hst (h.deps u hu hstu t (hj.array.producer u hu t ht task' task htask' htask s hs hp hne))

/-- No other task that is being run has the key. -/
def Parts.Unclaimed (j : Job) (x : Parts) (t : TaskPtr) (key : Bytes) : Prop :=
  ∀ u ∈ j.order, u ≠ t → x.stage u = .missed ∨ x.stage u = .ran →
    ∀ task, j.list[u]? = some task → keyAt x.world.fs task ≠ key

/-- A part of task `t` leads to `y`: the others keep what they have. -/
structure Follows (j : Job) (x : Parts) (t : TaskPtr) (y : Parts) : Prop where
  inv : PartInv j y
  grows : ∀ task, j.list[t]? = some task → Grows (task.places j.fs.cwd) x.world.fs y.world.fs
  tasks : ∀ u, u ≠ t → y.world.tasks[u]? = x.world.tasks[u]?

/-- What one step has to do: task `t`, not done before, goes to the stage `st` and writes to the
places `ps`. -/
theorem PartInv.act (h : PartInv j x) (hj : j.Ok) (ht : t ∈ j.order) (htask : j.list[t]? = some task)
    (hst : x.stage t ≠ .done) {st : Stage} {task' : Task} (hg : Grows ps x.world.fs w.fs)
    (hps : ∀ p ∈ ps, p ∈ task.places j.fs.cwd ∧ (st = .ran ∨ st = .done))
    (hran : x.stage t = .ran → st = .ran ∨ st = .done) (hsound : Sound w.fs)
    (hset : w.tasks = x.world.tasks.set t task') (hself : j.At w t task st)
    (hrec : ∀ key, w.fs.node (recordPath j.fs.cwd key) =
        x.world.fs.node (recordPath j.fs.cwd key) ∨
      st = .done ∧ Succeeded j w t task ∧ key = keyAt w.fs task ∧ x.Unclaimed j t key)
    (hdeps : st ≠ .todo → ∀ u, TransGen (DependsOn j.list) t u → x.stage u = .done) :
    Follows j x t (x.to t st w) := by
  have hcwd := h.grows.cwd
  have hother : ∀ u, u ≠ t → w.tasks[u]? = x.world.tasks[u]? := fun u hu => by
    rw [hset, List.getElem?_set_ne (Ne.symm hu)]
  have htasks : ∀ u ∈ j.order, u ≠ t → ∀ task', j.list[u]? = some task' →
      j.At w u task' (x.stage u) := fun u hu hne task' htask' => by
    refine (h.tasks u hu task' htask').grow hcwd hg ?_ (fun hstu s hs hp => ?_) (fun p hp hq => ?_)
      (fun hstu => ?_) (hother u hne)
    · rw [hcwd]
      exact hj.array.outside u hu task' htask'
    · rw [hcwd] at hp
      exact h.not_reads hj ht htask hst hu htask' hne hstu s hs (hps _ hp).1
    · rw [hcwd] at hp
      exact hne (hj.array.unique u hu t ht task' task htask' htask p hp (hps p hq).1)
    · refine (hrec _).resolve_right fun hk => ?_
      exact hk.2.2.2 u hu hne hstu task' htask' rfl
  have hwritten : x.written j ⊆ (x.to t st w).written j := by
    rintro p ⟨u, hu, hstu, hplace⟩
    refine ⟨u, hu, ?_, hplace⟩
    by_cases hne : u = t
    · subst hne
      rw [Parts.to_stage_self]
      exact hran (hstu.resolve_right hst)
    · rwa [Parts.to_stage_ne _ _ _ hne]
  have hgw : Grows ((x.to t st w).written j) x.world.fs w.fs := hg.mono fun p hp => by
    obtain ⟨hplace, hstage⟩ := hps p hp
    exact ⟨t, ht, by rwa [Parts.to_stage_self], task, htask, hplace⟩
  refine ⟨⟨(h.grows.mono hwritten).trans hgw, hsound, fun u hu task' htask' => ?_, fun u hu => ?_,
    fun key => ?_, fun u hu hstu v hv => ?_⟩, fun task' htask' => ?_, hother⟩
  · by_cases hne : u = t
    · subst hne
      obtain rfl : task = task' := Option.some.inj (htask.symm.trans htask')
      rwa [Parts.to_stage_self]
    · rw [Parts.to_stage_ne _ _ _ hne]
      exact htasks u hu hne task' htask'
  · exact (hother u fun he => hu (he ▸ ht)).trans (h.others u hu)
  · rcases hrec key with hkey | ⟨rfl, hs, hkey, -⟩
    · rcases h.records key with hold | ⟨u, hu, task', htask', hstu, hs, hkeyu⟩
      · exact .inl (hkey.trans hold)
      · have hne : u ≠ t := fun he => hst (he ▸ hstu)
        -- its record is still there, so it is done by its command
        obtain ⟨hk, hat⟩ : j.At w u task' .done := hstu ▸ htasks u hu hne task' htask'
        obtain ⟨hkold, -⟩ : j.At x.world u task' .done := hstu ▸ h.tasks u hu task' htask'
        have hsame : keyAt w.fs task' = keyAt x.world.fs task' := by
          refine congrArg blobHash (hkold.grow hg fun s hs hp => ?_).2.1
          rw [hcwd] at hp
          exact h.not_reads hj ht htask hst hu htask' hne (by simp [hstu]) s hs (hps _ hp).1
        refine .inr ⟨u, hu, task', htask', (Parts.to_stage_ne _ _ _ hne).trans hstu,
          hat.resolve_left ?_, hkeyu.trans hsame.symm⟩
        rintro ⟨content, r, hsk⟩
        have hstat := hsk.task.symm.trans ((hother u hne).trans hs.task)
        exact absurd (congrArg Task.status (Option.some.inj hstat)) (by simp)
    · exact .inr ⟨t, ht, task, htask, Parts.to_stage_self .., hs, hkey⟩
  · refine Parts.to_stage_done hst ?_ st w
    by_cases hne : u = t
    · subst hne
      rw [Parts.to_stage_self] at hstu
      exact hdeps hstu v hv
    · rw [Parts.to_stage_ne _ _ _ hne] at hstu
      exact h.deps u hu hstu v hv
  · obtain rfl : task = task' := Option.some.inj (htask.symm.trans htask')
    exact hg.mono fun p hp => (hps p hp).1

/-! ## 5. The parts keep it -/

theorem Job.Ok.declared (hj : j.Ok) (ht : t ∈ j.order) : ∃ task, j.list[t]? = some task :=
  ⟨_, List.getElem?_eq_getElem (hj.lt t ht)⟩

theorem Job.Ok.taskOk (hj : j.Ok) (ht : t ∈ j.order) (htask : j.list[t]? = some task) :
    TaskOk j.fs.cwd task :=
  hj.array.taskOk hj.fresh ht htask

/-- The outputs of a task whose command has not run are as they were. -/
theorem PartInv.unwritten (h : PartInv j x) (hj : j.Ok) (ht : t ∈ j.order)
    (htask : j.list[t]? = some task) (hst : x.stage t ≠ .ran ∧ x.stage t ≠ .done) :
    ∀ p ∈ task.places j.fs.cwd, x.world.fs.node p = j.fs.node p := by
  rintro p ⟨out, hout, rfl⟩
  refine h.grows.outside _ ((hj.taskOk ht htask).outside out hout) ?_
  rintro ⟨u, hu, hstu, task', htask', hp⟩
  obtain rfl := hj.array.unique u hu t ht task' task htask' htask _ hp ⟨out, hout, rfl⟩
  rcases hstu with hstu | hstu
  · exact hst.1 hstu
  · exact hst.2 hstu

/-- The status of a task that is not done may change. -/
theorem Job.At.mark {st : Stage} {task' : Task} (h : j.At w t task st) (hst : st ≠ .done)
    (htask' : w.tasks[t]? = some task') (st' : TaskStatus) :
    j.At ⟨w.tasks.set t { task' with status := st' }, w.fs⟩ t task st := by
  have hlt := (List.getElem?_eq_some_iff.mp htask').1
  have hset : ∀ declared : Task, (∃ st, w.tasks[t]? = some { declared with status := st }) →
      ∃ st, (w.tasks.set t { task' with status := st' })[t]? =
        some { declared with status := st } := by
    rintro declared ⟨st, hst⟩
    obtain rfl := Option.some.inj (htask'.symm.trans hst)
    exact ⟨st', List.getElem?_set_self hlt⟩
  have hrunning : j.Running w t task →
      j.Running ⟨w.tasks.set t { task' with status := st' }, w.fs⟩ t task := fun h =>
    ⟨h.keyed, h.unrecorded, h.record, hset _ h.task⟩
  cases st with
  | todo => exact hset task h
  | hashed => exact ⟨h.1, hset _ h.2⟩
  | missed => exact hrunning h
  | ran => exact ⟨hrunning h.1, h.2⟩
  | done => exact absurd rfl hst

/-- A part that only marks its task. -/
theorem PartInv.mark (h : PartInv j x) (hj : j.Ok) (ht : t ∈ j.order) (hst : x.stage t ≠ .done)
    (hw : x.world.run t = some w) : Follows j x t ⟨x.stage, w⟩ := by
  obtain ⟨task, htask⟩ := hj.declared ht
  obtain ⟨task', _, _, htask', hf, rfl⟩ := World.part_eq_some.mp hw
  cases hf
  have hact : Follows j x t (x.to t (x.stage t)
      ⟨x.world.tasks.set t { task' with status := .running }, x.world.fs⟩) :=
    h.act hj ht htask hst (.refl ∅ _) (fun p hp => hp.elim) .inl h.sound rfl
      ((h.tasks t ht task htask).mark hst htask' .running) (fun _ => .inl rfl) (h.deps t ht)
  rwa [Parts.to, Function.update_eq_self] at hact

/-- Hashing a task. -/
theorem PartInv.hash (h : PartInv j x) (hj : j.Ok) (ht : t ∈ j.order) (hst : x.stage t = .todo)
    (hdeps : ∀ u, TransGen (DependsOn j.list) t u → x.stage u = .done)
    (hw : x.world.part t true (hashPart x.world.fs) = some w) : Follows j x t (x.to t .hashed w) := by
  obtain ⟨task, htask⟩ := hj.declared ht
  obtain ⟨task', task₁, fs₁, htask', hf, rfl⟩ := World.part_eq_some.mp hw
  have hat := h.tasks t ht task htask
  rw [hst] at hat
  obtain ⟨st, hst'⟩ := hat
  obtain rfl := Option.some.inj (htask'.symm.trans hst')
  have hnone := (hj.fresh task (List.mem_of_getElem? htask)).taskHash
  obtain ⟨hh, rfl⟩ := hashPart_ok h.sound.store hnone hf
  have hlt := (List.getElem?_eq_some_iff.mp htask').1
  refine h.act hj ht htask (by simp [hst]) (hh.stores.grows ∅) (fun p hp => hp.elim) (by simp [hst])
    ⟨hh.ok, h.sound.cache.stores hh.stores⟩ rfl ⟨⟨hh.inputs, hh.length⟩, st, ?_⟩ (fun key => .inl ?_)
    fun _ => hdeps
  · rw [List.getElem?_set_self hlt]
  · have := hh.stores.node_record key
    rwa [hh.stores.cwd, h.grows.cwd] at this

/-- A hit. -/
theorem PartInv.hit (h : PartInv j x) (hj : j.Ok) (ht : t ∈ j.order) (hst : x.stage t = .hashed)
    (hw : x.world.part t true (lookupPart x.world.fs) = some w) : Follows j x t (x.to t .done w) := by
  obtain ⟨task, htask⟩ := hj.declared ht
  obtain ⟨task', task₁, fs₁, htask', hf, rfl⟩ := World.part_eq_some.mp hw
  have hat := h.tasks t ht task htask
  rw [hst] at hat
  obtain ⟨hk, st, hst'⟩ := hat
  obtain rfl := Option.some.inj (htask'.symm.trans hst')
  have hcwd := h.grows.cwd
  have hok := hj.taskOk ht htask
  have ho : OutsideAll x.world.fs.cwd task.outputs := by rw [hcwd]; exact hok.outside
  obtain ⟨content, r, hread, hr, hintact, rfl, rfl⟩ := lookupPart_hit h.sound ho hf
  have hwrites := writesOutputs_restoreWrites ho r.outputs
  have hg := hwrites.grows
  have hlt := (List.getElem?_eq_some_iff.mp htask').1
  obtain ⟨hk', htext, -⟩ := hk.grow hg fun s hs hp => by
    rw [hcwd] at hp
    exact hok.own s hs hp
  have hsame := hg.restoreWrites_eq ho hintact
  have hkeys := congrArg blobHash htext
  refine h.act hj ht htask (by simp [hst]) hg (fun p hp => ⟨hcwd ▸ hp, .inr rfl⟩) (by simp [hst])
    ⟨hwrites.storeInv h.sound.store, hwrites.cacheIntact h.sound.cache⟩ rfl
    ⟨hk', .inl ⟨content, r, ?_, hr, fun entry he => hg.intact (hintact entry he), fun p hp => ?_, ?_⟩⟩
    (fun key => .inl ?_) fun _ => h.deps t ht (by simp [hst])
  · exact (congrArg _ (congrArg metaPath hkeys)).trans (hg.read_record (isHash_keyAt ..) hread)
  · dsimp only
    rw [hsame, FS.setFiles_node, FS.setFiles_node, h.unwritten hj ht htask (by simp [hst]) p hp]
  · rw [List.getElem?_set_self hlt]
    exact congrArg some (by rw [hashedTask, hashedTask, keyAt, keyAt, htext])
  · have := hwrites.record key
    rwa [hcwd] at this

/-- A miss. -/
theorem PartInv.miss (h : PartInv j x) (hj : j.Ok) (ht : t ∈ j.order) (hst : x.stage t = .hashed)
    (hw : x.world.part t false (lookupPart x.world.fs) = some w) :
    Follows j x t (x.to t .missed w) := by
  obtain ⟨task, htask⟩ := hj.declared ht
  obtain ⟨task', task₁, fs₁, htask', hf, rfl⟩ := World.part_eq_some.mp hw
  have hat := h.tasks t ht task htask
  rw [hst] at hat
  obtain ⟨hk, st, hst'⟩ := hat
  obtain rfl := Option.some.inj (htask'.symm.trans hst')
  obtain ⟨-, hread, rfl, rfl⟩ | ⟨htrue, -⟩ := lookupPart_ok rfl hf
  swap
  · cases htrue
  have hlt := (List.getElem?_eq_some_iff.mp htask').1
  have hnow := (read_metaPath_eq_none (isHash_keyAt x.world.fs task) x.world.fs).mp hread
  rw [h.grows.cwd] at hnow
  refine h.act hj ht htask (by simp [hst]) (.refl ∅ _) (fun p hp => hp.elim) (by simp [hst])
    h.sound rfl ⟨hk, ?_, hnow, st, List.getElem?_set_self hlt⟩ (fun key => .inl rfl)
    fun _ => h.deps t ht (by simp [hst])
  -- what was there would be there
  by_contra hsome
  obtain ⟨n, hn⟩ := Option.ne_none_iff_exists'.mp hsome
  rw [h.grows.keep _ n (inside_recordPath ..) hn] at hnow
  cases hnow

/-- A command that ends with 0. -/
theorem PartInv.command (h : PartInv j x) (hj : j.Ok) (ht : t ∈ j.order) (hst : x.stage t = .missed)
    (hw : x.world.part t true (fun task => .ok (commandPart j.sys x.world.fs task)) = some w) :
    Follows j x t (x.to t .ran w) := by
  obtain ⟨task, htask⟩ := hj.declared ht
  obtain ⟨task', task₁, fs₁, htask', hf, rfl⟩ := World.part_eq_some.mp hw
  have hat := h.tasks t ht task htask
  rw [hst] at hat
  obtain ⟨st, hst'⟩ := hat.task
  obtain rfl := Option.some.inj (htask'.symm.trans hst')
  obtain ⟨hsys, rfl⟩ := commandPart_ok (Except.ok.inj hf)
  have hcwd := h.grows.cwd
  have hok := hj.taskOk ht htask
  have hwrites : WritesOutputs task x.world.fs fs₁ := by
    have := hj.writes t ht task htask x.world.fs hcwd
    rwa [show system j.sys task.cmd x.world.fs = (0, fs₁) from hsys] at this
  have hg := hwrites.grows
  have hlt := (List.getElem?_eq_some_iff.mp htask').1
  obtain ⟨hk, htext, hreads⟩ := hat.keyed.grow hg fun s hs hp => by
    rw [hcwd] at hp
    exact hok.own s hs hp
  have hkeys : keyAt fs₁ task = keyAt x.world.fs task := congrArg blobHash htext
  have hrecord := hwrites.record
  rw [hcwd] at hrecord
  refine h.act hj ht htask (by simp [hst]) hg (fun p hp => ⟨hcwd ▸ hp, .inl rfl⟩) (by simp [hst])
    ⟨hwrites.storeInv h.sound.store, hwrites.cacheIntact h.sound.cache⟩ rfl
    ⟨⟨hk, ?_, ?_, st, ?_⟩, x.world.fs, fs₁, hsys, hcwd, fun s hs => (hreads s hs).symm,
      h.unwritten hj ht htask (by simp [hst]), fun p hp => h.grows.dir p hp, fun p _ => rfl⟩
    (fun key => .inl (hrecord key)) fun _ => h.deps t ht (by simp [hst])
  · rw [Job.Unrecorded, hkeys]
    exact hat.unrecorded
  · dsimp only
    rw [hkeys, hrecord, hat.record]
  · rw [List.getElem?_set_self hlt]
    exact congrArg some (by rw [hashedTask, hashedTask, hkeys])

/-- A record that is written, where no other task that is being run has the key. -/
theorem PartInv.record (h : PartInv j x) (hj : j.Ok) (ht : t ∈ j.order) (hst : x.stage t = .ran)
    (hw : x.world.part t true (recordPart x.world.fs) = some w)
    (hfree : ∀ task, j.list[t]? = some task → x.Unclaimed j t (keyAt x.world.fs task)) :
    Follows j x t (x.to t .done w) := by
  obtain ⟨task, htask⟩ := hj.declared ht
  obtain ⟨task', task₁, fs₁, htask', hf, rfl⟩ := World.part_eq_some.mp hw
  have hat := h.tasks t ht task htask
  rw [hst] at hat
  obtain ⟨hat, fs₂, fs₃, hran⟩ := hat
  obtain ⟨st, hst'⟩ := hat.task
  obtain rfl := Option.some.inj (htask'.symm.trans hst')
  have hcwd := h.grows.cwd
  have hok := hj.taskOk ht htask
  have ho : OutsideAll x.world.fs.cwd task.outputs := by rw [hcwd]; exact hok.outside
  have hkey := isHash_keyAt x.world.fs task
  obtain ⟨hlen, rfl, rfl⟩ := recordPart_ok h.sound.store ho hf
  have hnone : x.world.fs.node (recordPath x.world.fs.cwd (keyAt x.world.fs task)) = none := by
    rw [hcwd]
    exact hat.record
  have hg := recorded_grows h.sound.store ho hnone ∅
  obtain ⟨hk, htext, hreads⟩ := hat.keyed.grow hg fun s hs hp => hp.elim
  obtain ⟨hnode, hout⟩ := hg.read_outputs ho fun p hp hq => hq.elim
  have hkeys : keyAt (recorded x.world.fs task (keyAt x.world.fs task)) task
      = keyAt x.world.fs task := congrArg blobHash htext
  have hlt := (List.getElem?_eq_some_iff.mp htask').1
  have hnew : ∀ p, p ≠ recordPath x.world.fs.cwd (keyAt x.world.fs task) →
      (recorded x.world.fs task (keyAt x.world.fs task)).node p =
        (outputsStored x.world.fs task).node p := fun p hp => FS.set_node_ne _ _ hp
  obtain ⟨hstores, -, hintact, -⟩ := outputsStored_stores h.sound.store ho
  have hdone : Succeeded j ⟨x.world.tasks.set t { hashedTask x.world.fs task with
      resultHash := some (resultAt x.world.fs task), status := .success },
      recorded x.world.fs task (keyAt x.world.fs task)⟩ t task := by
    refine ⟨⟨fs₂, fs₃, hran.run, hran.cwd, fun s hs => (hran.inputs s hs).trans (hreads s hs).symm,
      hran.before, hran.dir, fun p hp => (hnode p (hcwd ▸ hp)).trans (hran.after p hp)⟩, ?_, ?_, ?_,
      fun out hmem data hd => ?_, ?_⟩
    · rw [Job.Unrecorded, hkeys]
      exact hat.unrecorded
    · exact (resultText_congr hout).symm ▸ hlen
    · dsimp only
      rw [hkeys, recordOf_congr hout, ← hcwd]
      exact FS.set_node_self ..
    · rw [hout out hmem] at hd
      obtain ⟨-, d, hd⟩ := hintact (out, blobHash data) (List.mem_filterMap.mpr ⟨out, hmem, by rw [hd]; rfl⟩)
      rw [hstores.cwd] at hd
      rw [InStore, hg.cwd, hnew _ (recordPath_ne_objectPath _ _ _).symm, hd]
      simp
    · rw [List.getElem?_set_self hlt]
      exact congrArg some (by rw [hashedTask, hashedTask, hkeys, resultAt, resultAt, resultText_congr hout])
  refine h.act hj ht htask (by simp [hst]) hg (fun p hp => hp.elim) (by simp [hst])
    ⟨recorded_storeInv h.sound.store ho hnone h.sound.store fun _ _ _ _ => Set.mem_univ _,
      recorded_cacheIntact h.sound.store ho hnone hok.plain hok.few hkey h.sound.cache⟩
    rfl ⟨hk, .inr hdone⟩ (fun key => ?_) fun _ => h.deps t ht (by simp [hst])
  by_cases hkeyt : key = keyAt x.world.fs task
  · subst hkeyt
    exact .inr ⟨rfl, hdone, hkeys.symm, hfree task htask⟩
  · left
    rw [← hcwd, hnew _ fun he => hkeyt (recordPath_inj he)]
    exact hstores.elsewhere _ (not_objects_recordPath _ _)

/-- **One part** keeps the invariant, if no key is claimed twice. -/
theorem PartInv.step (h : PartInv j x) (hj : j.Ok) (hs : PartStep j.sys j.list j.order x t y)
    (hfree : x.stage t = .ran → ∀ task, j.list[t]? = some task →
      x.Unclaimed j t (keyAt x.world.fs task)) : Follows j x t y := by
  cases hs with
  | mark ht hst hw => exact h.mark hj ht hst hw
  | hash ht hst hdeps hw => exact h.hash hj ht hst hdeps hw
  | hit ht hst hw => exact h.hit hj ht hst hw
  | miss ht hst hw => exact h.miss hj ht hst hw
  | command ht hst hw => exact h.command hj ht hst hw
  | record ht hst hw => exact h.record hj ht hst hw (hfree hst)

end ReproVM
