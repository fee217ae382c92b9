/-
# The execution half of `main`

The loop over the sorted array: each task is hashed and executed, and the first that fails ends
the loop.  What one pass does is one of five things (`MainCall`): the hash fails, the task is
skipped, its command fails, its record cannot be written, or it succeeds.
-/
import ReproVM.Manifest
import ReproVM.TaskSteps

namespace ReproVM

open Bytes (ascii)

/-! ## 1. The loop -/

/-- One pass of the loop. -/
def mainTask (sys : System) (fs : FS) (task : Task) : Except Fault Exec := do
  let (ok, task, fs) ← ensureTaskHash fs task
  if ¬ ok then return ⟨false, { task with status := .failed }, fs, false⟩
  executeTask sys fs task

/-- What the loop leaves: whether `overall_failed` is still 0, the tasks and the tree, and the
tasks whose commands were run, in order. -/
structure MainRun where
  ok : Bool
  world : World
  ran : List TaskPtr

/-- The loop over the sorted array.  What `system` does may depend on the pass. -/
def runTasks (sys : TaskPtr → System) : List TaskPtr → World → Except Fault MainRun
  | [], w => .ok ⟨true, w, []⟩
  | t :: order, w =>
    match w.tasks[t]? with
    | none => .error .useAfterFree
    | some task =>
      match mainTask (sys t) w.fs task with
      | .error e => .error e
      | .ok e =>
        let w := ⟨w.tasks.set t e.task, e.fs⟩
        let ran := if e.ran then [t] else []
        if e.ok then
          match runTasks sys order w with
          | .error e => .error e
          | .ok r => .ok { r with ran := ran ++ r.ran }
        else .ok ⟨false, w, ran⟩

/-! ## 2. One pass -/

/-- What a pass over a task can do. -/
inductive MainCall (sys : System) (fs : FS) (task : Task) : Exec → Prop
  | hashFailed {fs₁ : FS} (hs : StoresInputs fs task fs₁) :
      MainCall sys fs task ⟨false, { task with status := .failed }, fs₁, false⟩
  | skipped {fs₁ : FS} (hh : HashedIn fs task fs₁) {content : Bytes} {r : Record}
      (hread : fs₁.read (metaPath (keyAt fs₁ task)) = some content)
      (hr : readRecord content = .ok r) :
      MainCall sys fs task
        ⟨true, { hashedTask fs₁ task with resultHash := some r.resultHash, status := .skipped },
          restoreAll fs₁ task.outputs r.outputs, false⟩
  | commandFailed {fs₁ fs₂ : FS} (hh : HashedIn fs task fs₁)
      (hmiss : fs₁.node (recordPath fs₁.cwd (keyAt fs₁ task)) = none) {ret : Int}
      (hsys : system sys task.cmd fs₁ = (ret, fs₂)) (hret : ret ≠ 0) :
      MainCall sys fs task ⟨false, { hashedTask fs₁ task with status := .failed }, fs₂, true⟩
  | recordFailed {fs₁ fs₂ : FS} (hh : HashedIn fs task fs₁)
      (hmiss : fs₁.node (recordPath fs₁.cwd (keyAt fs₁ task)) = none)
      (hsys : system sys task.cmd fs₁ = (0, fs₂)) :
      MainCall sys fs task
        ⟨false, { hashedTask fs₁ task with
            resultHash := some (resultAt fs₂ task), status := .failed },
          (storeOutputs fs₂ task.outputs).2, true⟩
  | success {fs₁ fs₂ : FS} (hh : HashedIn fs task fs₁)
      (hmiss : fs₁.node (recordPath fs₁.cwd (keyAt fs₁ task)) = none)
      (hsys : system sys task.cmd fs₁ = (0, fs₂)) (hlen : (resultText fs₂ task).length < 4096) :
      MainCall sys fs task
        ⟨true, { hashedTask fs₁ task with
            resultHash := some (resultAt fs₂ task), status := .success },
          recorded fs₂ task (keyAt fs₁ task), true⟩

theorem mainTask_hashed {sys : System} {fs fs₁ : FS} {task : Task}
    (h : ensureTaskHash fs task = .ok (true, hashedTask fs₁ task, fs₁)) :
    mainTask sys fs task = executeTask sys fs₁ (hashedTask fs₁ task) := by
  rw [mainTask, h]
  rfl

/-- With a hash, `execute_task` looks it up, and where there is no record runs the task. -/
theorem executeTask_hashed {sys : System} {fs : FS} {task : Task} {key : Bytes}
    (hkey : task.taskHash = some key) :
    executeTask sys fs task =
      match tryLoadTaskRecord fs { task with status := .running } with
      | .error e => .error e
      | .ok (cacheHit, task, fs) =>
        if cacheHit = 1 then .ok ⟨true, { task with status := .skipped }, fs, false⟩
        else runTask sys fs task := by
  have hensure : ensureTaskHash fs { task with status := .running }
      = .ok (true, { task with status := .running }, fs) := by
    simp only [ensureTaskHash, hkey]
  simp only [executeTask, hensure, bind, Except.bind]
  cases tryLoadTaskRecord fs { task with status := .running } <;> rfl

variable {sys : System} {fs fs₁ : FS} {task : Task}

/-- A task with a record is skipped. -/
theorem executeTask_hit {content : Bytes} {r : Record}
    (hread : fs₁.read (metaPath (keyAt fs₁ task)) = some content)
    (hr : readRecord content = .ok r) :
    executeTask sys fs₁ (hashedTask fs₁ task) =
      .ok ⟨true, { hashedTask fs₁ task with resultHash := some r.resultHash, status := .skipped },
        restoreAll fs₁ task.outputs r.outputs, false⟩ := by
  rw [executeTask_hashed rfl,
    tryLoadTaskRecord_eq fs₁ { hashedTask fs₁ task with status := .running } rfl, hread]
  simp only [hr]
  rfl

/-- A task without a record is run. -/
theorem executeTask_miss (hmiss : fs₁.read (metaPath (keyAt fs₁ task)) = none) :
    executeTask sys fs₁ (hashedTask fs₁ task) =
      runTask sys fs₁ { hashedTask fs₁ task with status := .running } := by
  rw [executeTask_hashed rfl,
    tryLoadTaskRecord_eq fs₁ { hashedTask fs₁ task with status := .running } rfl, hmiss]
  rfl

/-- A task without a record whose command and record go through. -/
theorem mainTask_success {fs₂ : FS} (hh : ensureTaskHash fs task = .ok (true, hashedTask fs₁ task, fs₁))
    (hmiss : fs₁.read (metaPath (keyAt fs₁ task)) = none)
    (hsys : system sys task.cmd fs₁ = (0, fs₂)) (hi : StoreOk fs₂)
    (ho : OutsideAll fs₂.cwd task.outputs) (hlen : (resultText fs₂ task).length < 4096)
    (hw : fs₂.Writable (metaPath (keyAt fs₁ task))) :
    mainTask sys fs task =
      .ok ⟨true, { hashedTask fs₁ task with
            resultHash := some (resultAt fs₂ task), status := .success },
          recorded fs₂ task (keyAt fs₁ task), true⟩ := by
  rw [mainTask_hashed hh, executeTask_miss hmiss]
  refine (runTask_eq { hashedTask fs₁ task with status := .running } hsys hi ho
    (isHash_keyAt fs₁ task) rfl).trans ?_
  exact (if_neg (by simp)).trans ((if_pos hlen).trans (if_pos hw))

/-- What `execute_task` can do with a task that was hashed in the tree `fs₁`. -/
inductive ExecCall (sys : System) (fs₁ : FS) (task : Task) : Exec → Prop
  | skipped {content : Bytes} {r : Record}
      (hread : fs₁.read (metaPath (keyAt fs₁ task)) = some content)
      (hr : readRecord content = .ok r) :
      ExecCall sys fs₁ task
        ⟨true, { hashedTask fs₁ task with resultHash := some r.resultHash, status := .skipped },
          restoreAll fs₁ task.outputs r.outputs, false⟩
  | commandFailed {fs₂ : FS} (hmiss : fs₁.node (recordPath fs₁.cwd (keyAt fs₁ task)) = none)
      {ret : Int} (hsys : system sys task.cmd fs₁ = (ret, fs₂)) (hret : ret ≠ 0) :
      ExecCall sys fs₁ task ⟨false, { hashedTask fs₁ task with status := .failed }, fs₂, true⟩
  | recordFailed {fs₂ : FS} (hmiss : fs₁.node (recordPath fs₁.cwd (keyAt fs₁ task)) = none)
      (hsys : system sys task.cmd fs₁ = (0, fs₂)) :
      ExecCall sys fs₁ task
        ⟨false, { hashedTask fs₁ task with
            resultHash := some (resultAt fs₂ task), status := .failed },
          (storeOutputs fs₂ task.outputs).2, true⟩
  | success {fs₂ : FS} (hmiss : fs₁.node (recordPath fs₁.cwd (keyAt fs₁ task)) = none)
      (hsys : system sys task.cmd fs₁ = (0, fs₂)) (hlen : (resultText fs₂ task).length < 4096) :
      ExecCall sys fs₁ task
        ⟨true, { hashedTask fs₁ task with
            resultHash := some (resultAt fs₂ task), status := .success },
          recorded fs₂ task (keyAt fs₁ task), true⟩

/-- The command may do anything outside `.reprovm`. -/
theorem executeTask_cases (hi : StoreOk fs₁) (ho : OutsideAll fs₁.cwd task.outputs)
    (hsys : EditOutside fs₁ (system sys task.cmd fs₁).2) {e : Exec}
    (h : executeTask sys fs₁ (hashedTask fs₁ task) = .ok e) : ExecCall sys fs₁ task e := by
  have hk := isHash_keyAt fs₁ task
  cases hread : fs₁.read (metaPath (keyAt fs₁ task)) with
  | none =>
    have hmiss := (read_metaPath_eq_none hk fs₁).mp hread
    rw [executeTask_miss hread] at h
    rcases hrun : system sys task.cmd fs₁ with ⟨ret, fs₂⟩
    rw [hrun] at hsys
    rw [runTask_eq { hashedTask fs₁ task with status := .running } hrun
      (hi.edit hsys) (by rwa [hsys.cwd]) hk rfl] at h
    split at h
    · rename_i hret
      cases h
      exact .commandFailed hmiss hrun hret
    · rename_i hret
      obtain rfl : ret = 0 := not_not.mp hret
      split at h
      · rename_i hlen
        split at h <;> cases h
        · exact .success hmiss hrun hlen
        · exact .recordFailed hmiss hrun
      · cases h
  | some content =>
    cases hr : readRecord content with
    | error e =>
      rw [executeTask_hashed rfl,
        tryLoadTaskRecord_eq fs₁ { hashedTask fs₁ task with status := .running } rfl,
        hread] at h
      simp only [hr] at h
      cases h
    | ok r =>
      rw [executeTask_hit hread hr] at h
      cases h
      exact .skipped hread hr

theorem ExecCall.mainCall {e : Exec} (h : ExecCall sys fs₁ task e) (hh : HashedIn fs task fs₁) :
    MainCall sys fs task e := by
  cases h with
  | skipped hread hr => exact .skipped hh hread hr
  | commandFailed hmiss hsys hret => exact .commandFailed hh hmiss hsys hret
  | recordFailed hmiss hsys => exact .recordFailed hh hmiss hsys
  | success hmiss hsys hlen => exact .success hh hmiss hsys hlen

/-- **One pass of the loop.** -/
theorem mainTask_cases (hi : StoreOk fs) (hnone : task.taskHash = none)
    (ho : OutsideAll fs.cwd task.outputs)
    (hsys : ∀ fs', fs'.cwd = fs.cwd → WritesOutputs task fs' (system sys task.cmd fs').2) {e : Exec}
    (h : mainTask sys fs task = .ok e) : MainCall sys fs task e := by
  rw [mainTask] at h
  rcases hens : ensureTaskHash fs task with _ | ⟨ok, task', fs₁⟩ <;> rw [hens] at h
  · cases h
  rcases ensureTaskHash_cases hi hnone hens with ⟨rfl, hh, rfl⟩ | ⟨rfl, hs, rfl⟩
  · replace h : executeTask sys fs₁ (hashedTask fs₁ task) = .ok e := h
    have hedit := (hsys fs₁ hh.stores.cwd).editOutside hh.ok.cwd
    exact (executeTask_cases hh.ok (by rwa [hh.stores.cwd]) hedit h).mainCall hh
  · cases h
    exact .hashFailed hs

/-! ## 3. The tasks of a manifest -/

/-- A task as the parser leaves it: no hash yet, and outputs that are names within a line. -/
structure FreshTask (task : Task) : Prop where
  taskHash : task.taskHash = none
  resultHash : task.resultHash = none
  status : task.status = .pending
  outputs : ∀ out ∈ task.outputs, out ≠ [] ∧ Bytes.Tight isBlank out ∧ ∀ c ∈ out, LineByte c

theorem lineByte_of_mem_line {content line : Bytes} (h : line ∈ strtokAll 10 (cstr content)) :
    ∀ c ∈ line, LineByte c := by
  intro c hc
  have hp : line ∈ Bytes.pieces 10 (cstr content) := (List.mem_filter.mp h).1
  refine ⟨?_, fun he => Bytes.notMem_of_mem_pieces hp (he ▸ hc)⟩
  have := List.mem_takeWhile_imp (Bytes.mem_of_mem_pieces hp hc)
  simpa using this

/-- What follows the `=` is part of the line. -/
theorem mem_of_mem_afterEq {tmp rest : Bytes} (h : afterEq tmp = some rest) :
    ∀ c ∈ rest, c ∈ tmp := by
  intro c hc
  unfold afterEq at h
  obtain ⟨eq, heq, rfl⟩ := Option.map_eq_some_iff.mp h
  unfold strchr at heq
  split at heq
  · cases heq
  · obtain rfl := Option.some.inj heq
    exact (List.dropWhile_suffix (· ≠ 61)).subset (List.mem_of_mem_tail hc)

theorem listField_fresh {tmp : Bytes} (h : ∀ c ∈ tmp, LineByte c) {xs : List Bytes}
    (hxs : listField tmp = some xs) :
    ∀ x ∈ xs, x ≠ [] ∧ Bytes.Tight isBlank x ∧ ∀ c ∈ x, LineByte c := by
  rw [listField, Option.map_eq_some_iff] at hxs
  obtain ⟨rest, hrest, rfl⟩ := hxs
  intro x hx
  obtain ⟨hne, htight, -, hmem⟩ := mem_splitCsvArray hx
  refine ⟨hne, htight, fun c hc => h c ?_⟩
  exact mem_of_mem_afterEq hrest c (Bytes.mem_of_mem_strip (hmem c hc))

/-- What a new task has and every field line keeps, where `tmp` is the line. -/
structure ParserKeeps (P : Task → Prop) : Prop where
  new : ∀ name, P (taskNew name)
  cmd : ∀ tmp : Bytes, (∀ c ∈ tmp, LineByte c) → ∀ rest, afterEq tmp = some rest →
    ∀ task, P task → P { task with cmd := some (rest.dropWhile isspace) }
  list : ∀ tmp : Bytes, (∀ c ∈ tmp, LineByte c) → ∀ xs, listField tmp = some xs →
    ∀ task, P task → P { task with inputs := xs } ∧ P { task with outputs := xs } ∧
      P { task with deps := xs }
  dependents : ∀ ds task, P task → P { task with dependents := ds }

namespace ParserKeeps

variable {P : Task → Prop} (hP : ParserKeeps P)

include hP

/-- One line. -/
theorem parseTmp {tmp : Bytes} (h : ∀ c ∈ tmp, LineByte c) {st : ParseState}
    (hst : (∀ task ∈ st.tasks, P task) ∧ ∀ task ∈ st.cur, P task) :
    (∀ task ∈ (parseTmp st tmp).tasks, P task) ∧ ∀ task ∈ (parseTmp st tmp).cur, P task := by
  obtain ⟨tasks, cur⟩ := st
  obtain ⟨ht, hc⟩ := hst
  -- one copy of the branches, for both parts of the result
  generalize hres : ReproVM.parseTmp ⟨tasks, cur⟩ tmp = res
  unfold ReproVM.parseTmp at hres
  split at hres
  · subst hres
    exact ⟨ht, hc⟩
  split at hres
  · subst hres
    refine ⟨ht, ?_⟩
    rintro task ⟨⟩
    exact hP.new _
  cases cur with
  | none =>
    subst hres
    exact ⟨ht, hc⟩
  | some cur =>
    have hcur := hc cur rfl
    simp only at hres
    split at hres
    · split at hres <;> subst hres
      · exact ⟨ht, hc⟩
      · rename_i rest hrest
        refine ⟨ht, ?_⟩
        rintro task ⟨⟩
        exact hP.cmd tmp h rest hrest cur hcur
    split at hres
    · split at hres <;> subst hres
      · exact ⟨ht, hc⟩
      · rename_i xs hxs
        refine ⟨ht, ?_⟩
        rintro task ⟨⟩
        exact (hP.list tmp h xs hxs cur hcur).1
    split at hres
    · split at hres <;> subst hres
      · exact ⟨ht, hc⟩
      · rename_i xs hxs
        refine ⟨ht, ?_⟩
        rintro task ⟨⟩
        exact (hP.list tmp h xs hxs cur hcur).2.1
    split at hres
    · split at hres <;> subst hres
      · exact ⟨ht, hc⟩
      · rename_i xs hxs
        refine ⟨ht, ?_⟩
        rintro task ⟨⟩
        exact (hP.list tmp h xs hxs cur hcur).2.2
    split at hres <;> subst hres
    · refine ⟨fun task hm => ?_, by simp⟩
      rcases List.mem_append.mp hm with hm | hm
      · exact ht task hm
      · obtain rfl := List.mem_singleton.mp hm
        exact hcur
    · exact ⟨ht, hc⟩

theorem parseTasks (content : Bytes) : ∀ task ∈ parseTasks content, P task := by
  have hrun : ∀ (lines : List Bytes) (st : ParseState), (∀ l ∈ lines, ∀ c ∈ l, LineByte c) →
      ((∀ task ∈ st.tasks, P task) ∧ ∀ task ∈ st.cur, P task) →
      (∀ task ∈ (lines.foldl parseLine st).tasks, P task) ∧
        ∀ task ∈ (lines.foldl parseLine st).cur, P task := by
    intro lines
    induction lines with
    | nil => exact fun _ _ h => h
    | cons l lines ih =>
      intro st hl hst
      refine ih _ (fun x hx => hl x (List.mem_cons_of_mem _ hx)) (hP.parseTmp (fun c hc => ?_) hst)
      exact hl l List.mem_cons_self c (List.mem_of_mem_take (Bytes.mem_of_mem_strip hc))
  obtain ⟨h1, h2⟩ := hrun (strtokAll 10 (cstr content)) ⟨[], none⟩
    (fun l hl => lineByte_of_mem_line hl) ⟨by simp, by simp⟩
  intro task hm
  unfold ReproVM.parseTasks at hm
  simp only at hm
  split at hm
  · exact h1 task hm
  · rename_i cur hcur
    rcases List.mem_append.mp hm with hm | hm
    · exact h1 task hm
    · obtain rfl := List.mem_singleton.mp hm
      exact h2 task hcur

/-- **Every task of a manifest has it.** -/
theorem parseManifest (content : Bytes) : ∀ task ∈ parseManifest content, P task := by
  intro task hm
  rw [ReproVM.parseManifest, buildDependents_eq (ReproVM.parseTasks content),
    List.mem_mapIdx] at hm
  obtain ⟨i, hi, rfl⟩ := hm
  exact hP.dependents _ _ (hP.parseTasks content _ (List.getElem_mem hi))

end ParserKeeps

theorem parserKeeps_fresh : ParserKeeps FreshTask where
  new _ := ⟨rfl, rfl, rfl, by simp [taskNew]⟩
  cmd _ _ _ _ _ h := ⟨h.1, h.2, h.3, h.4⟩
  list _ hline _ hxs _ h :=
    ⟨⟨h.1, h.2, h.3, h.4⟩, ⟨h.1, h.2, h.3, listField_fresh hline hxs⟩, ⟨h.1, h.2, h.3, h.4⟩⟩
  dependents _ _ h := ⟨h.1, h.2, h.3, h.4⟩

/-- **The tasks of a manifest are fresh.** -/
theorem parseManifest_fresh (content : Bytes) : ∀ task ∈ parseManifest content, FreshTask task :=
  parserKeeps_fresh.parseManifest content

/-- A command is part of a line. -/
theorem parserKeeps_cmd : ParserKeeps fun task => ∀ c ∈ task.cmd.getD [], LineByte c where
  new _ := by simp [taskNew]
  cmd _ hline _ hrest _ _ c hc :=
    hline c (mem_of_mem_afterEq hrest c ((List.dropWhile_suffix isspace).subset hc))
  list _ _ _ _ _ h := ⟨h, h, h⟩
  dependents _ _ h := h

theorem parseManifest_cmd (content : Bytes) :
    ∀ task ∈ parseManifest content, 10 ∉ task.cmd.getD [] := fun task hm h =>
  (parserKeeps_cmd.parseManifest content task hm 10 h).2 rfl

end ReproVM
