/-
# Running a task part by part

A pass cut where another worker can come in between: hashing the task, looking it up, running its
command, writing its record.  `mainTask` is the four in a row (`mainTask_parts`), so the loop of
`main` and the workers of the parallel executor are both runs of one system (`PartStep`), in which
the parts of different tasks come in any order, but a task is hashed only when all that it depends
on is done.
-/
import ReproVM.Lib.Trans
import ReproVM.SerialRun
import ReproVM.WarmRun

namespace ReproVM

open Bytes (ascii)
open Lib (PostOrder Run)
open Relation

variable {sys : System} {fs fs' : FS} {task task' : Task}

/-! ## 1. The parts -/

/-- `compute_task_hash` with what its callers do when it fails. -/
def hashPart (fs : FS) (task : Task) : Except Fault (Bool × Task × FS) := do
  let (ok, task, fs) ← ensureTaskHash fs task
  return (ok, if ok then task else { task with status := .failed }, fs)

/-- `try_load_task_record`, with the restores of a hit. -/
def lookupPart (fs : FS) (task : Task) : Except Fault (Bool × Task × FS) := do
  let (cacheHit, task, fs) ← tryLoadTaskRecord fs task
  return (cacheHit = 1, task, fs)

def commandPart (sys : System) (fs : FS) (task : Task) : Bool × Task × FS :=
  let (ret, fs) := system sys task.cmd fs
  if ret = 0 then (true, task, fs) else (false, { task with status := .failed }, fs)

/-- `compute_result_hash` and `write_task_record`. -/
def recordPart (fs : FS) (task : Task) : Except Fault (Bool × Task × FS) := do
  let (task, fs) ← computeResultHash fs task
  let (ok, fs) := writeTaskRecord fs task
  return (ok, { task with status := if ok then .success else .failed }, fs)

theorem runTask_parts {e : Exec} (h : runTask sys fs task = .ok e) (hok : e.ok = true) :
    ∃ fs₁, commandPart sys fs task = (true, task, fs₁) ∧
      recordPart fs₁ task = .ok (true, e.task, e.fs) := by
  rw [runTask] at h
  rcases hsys : system sys task.cmd fs with ⟨ret, fs₁⟩
  rw [hsys] at h
  dsimp only [bind, Except.bind] at h
  by_cases hret : ret = 0
  · refine ⟨fs₁, by rw [commandPart, hsys]; exact if_pos hret, ?_⟩
    rw [if_neg (not_not.mpr hret)] at h
    rw [recordPart]
    rcases hres : computeResultHash fs₁ task with _ | ⟨task₁, fs₂⟩ <;> rw [hres] at h
    · cases h
    dsimp only [bind, Except.bind] at h ⊢
    rcases hrec : writeTaskRecord fs₂ task₁ with ⟨_ | _, fs₃⟩ <;> rw [hrec] at h <;> cases h
    · cases hok
    · rfl
  · rw [if_pos hret] at h
    cases h
    cases hok

/-- **A pass that ends well** is its parts in a row. -/
theorem mainTask_parts {e : Exec} (h : mainTask sys fs task = .ok e) (hok : e.ok = true) :
    ∃ task₁ fs₁, hashPart fs task = .ok (true, task₁, fs₁) ∧
      (lookupPart fs₁ { task₁ with status := .running } = .ok (true, e.task, e.fs) ∨
        ∃ task₂ fs₂ fs₃,
          lookupPart fs₁ { task₁ with status := .running } = .ok (false, task₂, fs₂) ∧
            commandPart sys fs₂ task₂ = (true, task₂, fs₃) ∧
              recordPart fs₃ task₂ = .ok (true, e.task, e.fs)) := by
  rw [mainTask] at h
  rcases hens : ensureTaskHash fs task with _ | ⟨ok, task₁, fs₁⟩ <;> rw [hens] at h
  · cases h
  rcases ensureTaskHash_or hens with ⟨rfl, -, rfl⟩ | ⟨rfl, computed, key, -, rfl⟩
  · cases h
    cases hok
  refine ⟨{ task with taskHash := some key }, fs₁, by rw [hashPart, hens]; rfl, ?_⟩
  replace h : executeTask sys fs₁ { task with taskHash := some key } = .ok e := h
  rw [executeTask_hashed rfl] at h
  dsimp only at h ⊢
  generalize { task with taskHash := some key, status := TaskStatus.running } = running at h ⊢
  rw [lookupPart]
  rcases htry : tryLoadTaskRecord fs₁ running with _ | ⟨hit, task₂, fs₂⟩ <;> rw [htry] at h
  · cases h
  dsimp only at h
  by_cases hhit : hit = 1
  · rw [if_pos hhit] at h
    cases h
    obtain ⟨hne, -⟩ | ⟨-, r, rfl⟩ := tryLoadTaskRecord_or htry
    · exact absurd hhit hne
    · subst hhit
      exact .inl rfl
  · rw [if_neg hhit] at h
    obtain ⟨fs₃, hcommand, hrecord⟩ := runTask_parts h hok
    refine .inr ⟨task₂, fs₂, fs₃, ?_, hcommand, hrecord⟩
    dsimp only [bind, Except.bind]
    rw [decide_eq_false hhit]
    rfl

/-! ## 2. What a part does where the store is in order -/

theorem hashPart_ok (hi : StoreOk fs) (hnone : task.taskHash = none) {st : TaskStatus}
    (h : hashPart fs { task with status := st } = .ok (true, task', fs')) :
    HashedIn fs task fs' ∧ task' = { hashedTask fs' task with status := st } := by
  rw [hashPart] at h
  rcases hens : ensureTaskHash fs { task with status := st } with _ | ⟨ok, task₁, fs₁⟩ <;>
    rw [hens] at h <;> cases h
  have hnone' : ({ task with status := st } : Task).taskHash = none := hnone
  obtain ⟨-, hh, rfl⟩ | ⟨h, -⟩ := ensureTaskHash_cases hi hnone' hens
  · exact ⟨⟨⟨hh.stores, hh.ok, hh.inv⟩, hh.inputs, hh.length⟩, rfl⟩
  · cases h

/-- All that hashing does to the tree is to store the inputs. -/
theorem hashPart_fs {ok : Bool} (hnone : task.taskHash = none) {st : TaskStatus}
    (h : hashPart fs { task with status := st } = .ok (ok, task', fs')) :
    fs' = (storeInputs fs task.inputs).2 := by
  rw [hashPart, ensureTaskHash] at h
  simp only [hnone, computeTaskHash] at h
  rcases hrun : storeInputs fs task.inputs with ⟨_ | hs, fs₁⟩ <;> rw [hrun] at h
  · cases h
    rfl
  · dsimp only at h
    split at h <;> cases h
    rfl

/-- A lookup is a hit where there is a record. -/
theorem lookupPart_ok {hit : Bool} {key : Bytes} (hkey : task.taskHash = some key)
    (h : lookupPart fs task = .ok (hit, task', fs')) :
    hit = false ∧ fs.read (metaPath key) = none ∧ task' = task ∧ fs' = fs ∨
      hit = true ∧ ∃ content r, fs.read (metaPath key) = some content ∧
        readRecord content = .ok r ∧
        task' = { task with resultHash := some r.resultHash, status := .skipped } ∧
        fs' = restoreAll fs task.outputs r.outputs := by
  rw [lookupPart, tryLoadTaskRecord_eq fs task hkey] at h
  cases hread : fs.read (metaPath key) with
  | none =>
    rw [hread] at h
    cases h
    exact .inl ⟨rfl, rfl, rfl, rfl⟩
  | some content =>
    rw [hread] at h
    dsimp only at h
    cases hr : readRecord content with
    | error err =>
      rw [hr] at h
      cases h
    | ok r =>
      rw [hr] at h
      cases h
      exact .inr ⟨rfl, content, r, rfl, hr, rfl, rfl⟩

/-- A hit restores what the store holds. -/
theorem lookupPart_hit (hs : Sound fs) (ho : OutsideAll fs.cwd task.outputs) {fs₁ : FS}
    {st : TaskStatus}
    (h : lookupPart fs { hashedTask fs₁ task with status := st } = .ok (true, task', fs')) :
    ∃ content r, fs.read (metaPath (keyAt fs₁ task)) = some content ∧ readRecord content = .ok r ∧
      (∀ entry ∈ r.outputs, Intact fs entry.2) ∧
      task' = { hashedTask fs₁ task with resultHash := some r.resultHash, status := .skipped } ∧
      fs' = fs.setFiles (restoreWrites fs task.outputs r.outputs) := by
  obtain ⟨hfalse, -⟩ | ⟨-, content, r, hread, hr, rfl, rfl⟩ := lookupPart_ok rfl h
  · cases hfalse
  · have hintact := hs.cache _ content r (isHash_keyAt fs₁ task) hread hr
    exact ⟨content, r, hread, hr, hintact, rfl, restoreOutputs_eq hs.store ho hintact⟩

theorem commandPart_ok (h : commandPart sys fs task = (true, task', fs')) :
    system sys task.cmd fs = (0, fs') ∧ task' = task := by
  rw [commandPart] at h
  rcases hsys : system sys task.cmd fs with ⟨ret, fs₁⟩
  rw [hsys] at h
  dsimp only at h
  split at h <;> cases h
  rename_i hret
  exact ⟨by rw [hret], rfl⟩

theorem recordPart_eq (hi : StoreOk fs) (ho : OutsideAll fs.cwd task.outputs) {key : Bytes}
    (hk : IsHash key) (hkey : task.taskHash = some key) :
    recordPart fs task =
      if (resultText fs task).length < 4096 then
        if fs.Writable (metaPath key) then
          .ok (true, { task with resultHash := some (resultAt fs task), status := .success },
            recorded fs task key)
        else
          .ok (false, { task with resultHash := some (resultAt fs task), status := .failed },
            (storeOutputs fs task.outputs).2)
      else .error .bufferOverflow := by
  rw [recordPart, computeResultHash_eq hi ho]
  by_cases hlen : (resultText fs task).length < 4096
  · simp only [if_pos hlen, bind, Except.bind, writeTaskRecord_result hi ho hk hkey]
    by_cases hw : fs.Writable (metaPath key) <;> simp only [hw, if_true, if_false] <;> rfl
  · simp only [if_neg hlen, bind, Except.bind]

theorem recordPart_ok (hi : StoreOk fs) (ho : OutsideAll fs.cwd task.outputs) {fs₁ : FS}
    {st : TaskStatus}
    (h : recordPart fs { hashedTask fs₁ task with status := st } = .ok (true, task', fs')) :
    (resultText fs task).length < 4096 ∧
      task' = { hashedTask fs₁ task with
        resultHash := some (resultAt fs task), status := .success } ∧
      fs' = recorded fs task (keyAt fs₁ task) := by
  obtain ⟨running, hrunning⟩ : ∃ running, running = { hashedTask fs₁ task with status := st } :=
    ⟨_, rfl⟩
  have ho' : OutsideAll fs.cwd running.outputs := by rw [hrunning]; exact ho
  rw [← hrunning, recordPart_eq hi ho' (isHash_keyAt fs₁ task) (by rw [hrunning]; rfl)] at h
  subst hrunning
  split at h
  · rename_i hlen
    split at h <;> cases h
    exact ⟨hlen, rfl, rfl⟩
  · cases h

/-! ## 3. A system of parts -/

/-- A part with its outcome, as it changes the tasks and the tree; `none` where the part of the
task does not end so. -/
def World.part (w : World) (t : TaskPtr) (outcome : Bool)
    (f : Task → Except Fault (Bool × Task × FS)) : Option World :=
  match w.tasks[t]? with
  | none => none
  | some task =>
    match f task with
    | .error _ => none
    | .ok (r, task, fs) => if r = outcome then some ⟨w.tasks.set t task, fs⟩ else none

theorem World.part_eq_some {w w' : World} {t : TaskPtr} {outcome : Bool}
    {f : Task → Except Fault (Bool × Task × FS)} :
    w.part t outcome f = some w' ↔ ∃ task task' fs, w.tasks[t]? = some task ∧
      f task = .ok (outcome, task', fs) ∧ w' = ⟨w.tasks.set t task', fs⟩ := by
  rw [World.part]
  constructor
  · intro h
    split at h
    · cases h
    · rename_i task htask
      split at h
      · cases h
      · rename_i r task' fs hf
        split at h
        · rename_i hr
          cases h
          exact ⟨task, task', fs, htask, hr ▸ hf, rfl⟩
        · cases h
  · rintro ⟨task, task', fs, htask, hf, rfl⟩
    simp only [htask, hf, if_true]

/-- Which parts of a task are behind it. -/
inductive Stage
  | todo
  | hashed
  | missed
  | ran
  | done
deriving DecidableEq

structure Parts where
  stage : TaskPtr → Stage
  world : World

/-- All tasks are to do. -/
def Parts.init (w : World) : Parts := ⟨fun _ => .todo, w⟩

def Parts.to (x : Parts) (t : TaskPtr) (st : Stage) (w : World) : Parts :=
  ⟨Function.update x.stage t st, w⟩

/-- `STATUS_RUNNING`. -/
def World.run (w : World) (t : TaskPtr) : Option World :=
  w.part t true fun task => .ok (true, { task with status := .running }, w.fs)

/-- The next part of a task. -/
inductive PartStep (sys : System) (list : TaskList) (order : List TaskPtr) :
    Parts → TaskPtr → Parts → Prop
  | mark {x : Parts} {t : TaskPtr} {w : World} (ht : t ∈ order) (hst : x.stage t ≠ .done)
      (h : x.world.run t = some w) : PartStep sys list order x t ⟨x.stage, w⟩
  | hash {x : Parts} {t : TaskPtr} {w : World} (ht : t ∈ order) (hst : x.stage t = .todo)
      (hdeps : ∀ u, TransGen (DependsOn list) t u → x.stage u = .done)
      (h : x.world.part t true (hashPart x.world.fs) = some w) :
      PartStep sys list order x t (x.to t .hashed w)
  | hit {x : Parts} {t : TaskPtr} {w : World} (ht : t ∈ order) (hst : x.stage t = .hashed)
      (h : x.world.part t true (lookupPart x.world.fs) = some w) :
      PartStep sys list order x t (x.to t .done w)
  | miss {x : Parts} {t : TaskPtr} {w : World} (ht : t ∈ order) (hst : x.stage t = .hashed)
      (h : x.world.part t false (lookupPart x.world.fs) = some w) :
      PartStep sys list order x t (x.to t .missed w)
  | command {x : Parts} {t : TaskPtr} {w : World} (ht : t ∈ order) (hst : x.stage t = .missed)
      (h : x.world.part t true (fun task => .ok (commandPart sys x.world.fs task)) = some w) :
      PartStep sys list order x t (x.to t .ran w)
  | record {x : Parts} {t : TaskPtr} {w : World} (ht : t ∈ order) (hst : x.stage t = .ran)
      (h : x.world.part t true (recordPart x.world.fs) = some w) :
      PartStep sys list order x t (x.to t .done w)

theorem PartStep.mem {list : TaskList} {order : List TaskPtr} {x y : Parts} {t : TaskPtr}
    (h : PartStep sys list order x t y) : t ∈ order := by
  cases h <;> assumption

end ReproVM
