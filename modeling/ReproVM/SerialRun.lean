/-
# The loop of `main`, whatever its calls do

A pass hashes its task, looks it up, runs its command, hashes its outputs and writes its record.
Here each of these may end in any way (`PassOutcome`), so that what is proved of the loop holds
for every cache, every tree and every command; the loop of `Main`, where the tree decides how
they end, is one of these (`runTasks_mainLoop`).
-/
import ReproVM.Main
import ReproVM.Planning

namespace ReproVM

open Bytes (ascii)
open Lib (PostOrder)

/-! ## 1. A pass -/

/-- How `try_load_task_record` ends: with 1 and the result hash of the record, with 0 or -1. -/
inductive Lookup
  | hit (resultHash : Bytes)
  | miss
  | error
deriving DecidableEq

/-- How the calls of a pass end; a hash is `none` where computing it fails. -/
structure PassOutcome where
  /-- `compute_task_hash` as `main` calls it -/
  mainHash : Option Bytes
  /-- and as `execute_task` does, on a task without a hash -/
  taskHash : Option Bytes
  lookup : Lookup
  /-- what `system` returns -/
  ret : Int
  resultHash : Option Bytes
  /-- `write_task_record` returned 0 -/
  recorded : Bool

/-- `execute_task`: whether it returns 0, and the task it leaves. -/
def executeTaskWith (p : PassOutcome) (task : Task) : Bool × Task :=
  let task := { task with status := .running }
  match task.taskHash.or p.taskHash with
  | none => (false, { task with status := .failed })
  | some h =>
    let task := { task with taskHash := some h }
    match p.lookup with
    | .hit resultHash => (true, { task with resultHash := some resultHash, status := .skipped })
    | .miss | .error =>
      if p.ret ≠ 0 then (false, { task with status := .failed })
      else
        match p.resultHash with
        | none => (false, { task with status := .failed })
        | some h =>
          let task := { task with resultHash := some h }
          if p.recorded then (true, { task with status := .success })
          else (false, { task with status := .failed })

/-- What a pass leaves, and the task as `execute_task` was given it, when it was called. -/
structure Pass where
  ok : Bool
  given : Option Task
  task : Task

/-- One pass of the loop. -/
def passWith (p : PassOutcome) (task : Task) : Pass :=
  match task.taskHash.or p.mainHash with
  | none => ⟨false, none, { task with status := .failed }⟩
  | some h =>
    let given := { task with taskHash := some h }
    let r := executeTaskWith p given
    ⟨r.1, some given, r.2⟩

/-! ## 2. The loop -/

/-- What the loop leaves: `overall_failed`, the tasks, and for each call of `execute_task` its
task and the tasks as they were then. -/
structure SerialRun where
  failed : Bool
  tasks : TaskList
  started : List (TaskPtr × TaskList)

/-- The loop over the sorted array. -/
def mainLoop (o : TaskPtr → PassOutcome) : List TaskPtr → TaskList → Except Fault SerialRun
  | [], tasks => .ok ⟨false, tasks, []⟩
  | t :: sorted, tasks =>
    match tasks[t]? with
    | none => .error .useAfterFree
    | some task =>
      let p := passWith (o t) task
      let started := p.given.toList.map fun given => (t, tasks.set t given)
      if p.ok then
        match mainLoop o sorted (tasks.set t p.task) with
        | .error e => .error e
        | .ok run => .ok { run with started := started ++ run.started }
      else .ok ⟨true, tasks.set t p.task, started⟩

def statusOf (list : TaskList) (t : TaskPtr) : Option TaskStatus := list[t]?.map Task.status

theorem executeTaskWith_cases (p : PassOutcome) (task : Task) :
    (executeTaskWith p task).1 = true ∧ (executeTaskWith p task).2.status.Good ∨
      (executeTaskWith p task).1 = false ∧ (executeTaskWith p task).2.status = .failed := by
  unfold executeTaskWith
  simp only
  split
  · exact .inr ⟨rfl, rfl⟩
  split
  · exact .inl ⟨rfl, .inl rfl⟩
  all_goals
    split
    · exact .inr ⟨rfl, rfl⟩
    split
    · exact .inr ⟨rfl, rfl⟩
    split
    · exact .inl ⟨rfl, .inr rfl⟩
    · exact .inr ⟨rfl, rfl⟩

/-- A pass ends well or with its task failed; it calls `execute_task` on the task as it is. -/
theorem passWith_cases (p : PassOutcome) (task : Task) :
    ((passWith p task).ok = true ∧ (passWith p task).task.status.Good ∨
      (passWith p task).ok = false ∧ (passWith p task).task.status = .failed) ∧
      ∀ given ∈ (passWith p task).given, given.status = task.status := by
  unfold passWith
  split
  · exact ⟨.inr ⟨rfl, rfl⟩, by simp⟩
  · refine ⟨executeTaskWith_cases _ _, ?_⟩
    rintro given ⟨⟩
    rfl

variable {o : TaskPtr → PassOutcome} {order done rest : List TaskPtr} {tasks : TaskList}
  {run : SerialRun} {t u : TaskPtr} {task : Task}

theorem statusOf_set_self (ht : t < tasks.length) :
    statusOf (tasks.set t task) t = some task.status := by
  rw [statusOf, List.getElem?_set_self ht, Option.map_some]

theorem statusOf_set_ne (h : u ≠ t) : statusOf (tasks.set t task) u = statusOf tasks u := by
  rw [statusOf, List.getElem?_set_ne h.symm, statusOf]

/-- The loop ended with the tasks in `done` done, and those in `rest` left, of which the first
has failed. -/
structure LoopEnd (tasks : TaskList) (order done rest : List TaskPtr) (run : SerialRun) : Prop where
  split : order = done ++ rest
  good : ∀ t ∈ done, ∃ st ∈ statusOf run.tasks t, st.Good
  first : ∀ t ∈ rest.head?, statusOf run.tasks t = some .failed
  others : ∀ u, u ∉ done → u ∉ rest.head? → statusOf run.tasks u = statusOf tasks u
  flag : run.failed = true ↔ rest ≠ []
  /-- before a call, those before it are done, and no other is touched -/
  started : ∀ x ∈ run.started, ∃ before after, order = before ++ x.1 :: after ∧
    (∀ u ∈ before, ∃ st ∈ statusOf x.2 u, st.Good) ∧
      ∀ u, u ∉ before → statusOf x.2 u = statusOf tasks u

/-- `execute_task` starts on the tasks as the passes before left them. -/
theorem statusOf_given (htask : tasks[t]? = some task) (p : PassOutcome) {x : TaskPtr × TaskList}
    (hx : x ∈ (passWith p task).given.toList.map fun given => (t, tasks.set t given)) :
    x.1 = t ∧ ∀ u, statusOf x.2 u = statusOf tasks u := by
  obtain ⟨given, hg, rfl⟩ := List.mem_map.mp hx
  refine ⟨rfl, fun u => ?_⟩
  have hst : given.status = task.status := (passWith_cases p task).2 given (by simpa using hg)
  have ht : t < tasks.length := (List.getElem?_eq_some_iff.mp htask).1
  by_cases hu : u = t
  · rw [hu, statusOf_set_self ht, hst, statusOf, htask, Option.map_some]
  · exact statusOf_set_ne hu

/-- A failed pass ends the loop. -/
theorem loopEnd_failed (htask : tasks[t]? = some task) {p : PassOutcome}
    (hp : (passWith p task).task.status = .failed) :
    LoopEnd tasks (t :: order) [] (t :: order)
      ⟨true, tasks.set t (passWith p task).task,
        (passWith p task).given.toList.map fun given => (t, tasks.set t given)⟩ where
  split := rfl
  good := by simp
  first := by
    rintro u ⟨⟩
    rw [statusOf_set_self (List.getElem?_eq_some_iff.mp htask).1, hp]
  others u _ hu := statusOf_set_ne fun he => hu (by simp [he])
  flag := by simp
  started x hx := by
    obtain ⟨rfl, hst⟩ := statusOf_given htask p hx
    exact ⟨[], order, rfl, by simp, fun u _ => hst u⟩

/-- After a pass that ends well the loop goes on. -/
theorem LoopEnd.cons (htask : tasks[t]? = some task) {p : PassOutcome}
    (hp : (passWith p task).task.status.Good) (ht : t ∉ order)
    (h : LoopEnd (tasks.set t (passWith p task).task) order done rest run) :
    LoopEnd tasks (t :: order) (t :: done) rest { run with
      started := ((passWith p task).given.toList.map fun given => (t, tasks.set t given)) ++
        run.started } := by
  have hlt : t < tasks.length := (List.getElem?_eq_some_iff.mp htask).1
  have hself : ∃ st ∈ statusOf (tasks.set t (passWith p task).task) t, st.Good :=
    ⟨_, statusOf_set_self hlt, hp⟩
  obtain ⟨hd, hr⟩ : t ∉ done ∧ t ∉ rest := by
    rw [h.split, List.mem_append, not_or] at ht
    exact ht
  refine ⟨by rw [h.split, List.cons_append], fun u hu => ?_, h.first, fun u hu hu' => ?_, h.flag,
    fun x hx => ?_⟩
  · rcases List.mem_cons.mp hu with rfl | hu
    · rw [h.others u hd fun hx => hr (List.mem_of_mem_head? hx)]
      exact hself
    · exact h.good u hu
  · rw [List.mem_cons, not_or] at hu
    exact (h.others u hu.2 hu').trans (statusOf_set_ne hu.1)
  · rcases List.mem_append.mp hx with hx | hx
    · obtain ⟨rfl, hst⟩ := statusOf_given htask p hx
      exact ⟨[], order, rfl, by simp, fun u _ => hst u⟩
    · obtain ⟨before, after, he, hgood, hsame⟩ := h.started x hx
      have htb : t ∉ before := fun hm => ht (by rw [he]; exact List.mem_append_left _ hm)
      refine ⟨t :: before, after, by rw [he, List.cons_append], fun u hu => ?_, fun u hu => ?_⟩
      · rcases List.mem_cons.mp hu with rfl | hu
        · rw [hsame u htb]
          exact hself
        · exact hgood u hu
      · rw [List.mem_cons, not_or] at hu
        exact (hsame u hu.2).trans (statusOf_set_ne hu.1)

/-- **What a run of the loop does.** -/
theorem mainLoop_spec (o : TaskPtr → PassOutcome) (hnd : order.Nodup)
    (hlt : ∀ t ∈ order, t < tasks.length) :
    ∃ run, mainLoop o order tasks = .ok run ∧ ∃ done rest, LoopEnd tasks order done rest run := by
  induction order generalizing tasks with
  | nil => exact ⟨_, rfl, [], [], rfl, by simp, by simp, fun _ _ _ => rfl, by simp, by simp⟩
  | cons t order ih =>
    obtain ⟨ht, hnd⟩ := List.nodup_cons.mp hnd
    obtain ⟨task, htask⟩ : ∃ task, tasks[t]? = some task :=
      ⟨_, List.getElem?_eq_getElem (hlt t List.mem_cons_self)⟩
    rw [mainLoop, htask]
    simp only
    rcases (passWith_cases (o t) task).1 with ⟨hok, hgood⟩ | ⟨hok, hfailed⟩
    · have hlt' : ∀ u ∈ order, u < (tasks.set t (passWith (o t) task).task).length := by
        intro u hu
        rw [List.length_set]
        exact hlt u (List.mem_cons_of_mem _ hu)
      obtain ⟨run, hrun, done, rest, hend⟩ := ih hnd hlt'
      rw [if_pos hok, hrun]
      exact ⟨_, rfl, t :: done, rest, hend.cons htask hgood ht⟩
    · rw [if_neg (by simp [hok])]
      exact ⟨_, rfl, [], t :: order, loopEnd_failed htask hfailed⟩

/-! ## 3. The loop of a manifest -/

variable {moves : Nat → Bool} {fuel : Nat} {manifest : Bytes} {targets : List Bytes}

theorem statusOf_parseManifest (ht : t < (parseManifest manifest).length) :
    statusOf (parseManifest manifest) t = some .pending := by
  rw [statusOf, List.getElem?_eq_getElem ht, Option.map_some,
    (parseManifest_fresh manifest _ (List.getElem_mem ht)).status]

/-- The sorted array of a manifest with distinct names. -/
theorem plan_sorted (hp : plan moves fuel manifest targets = .ok (.sorted order))
    (hn : ((parseManifest manifest).map Task.name).Nodup) :
    order.Nodup ∧ PostOrder (DependsOn (parseManifest manifest)) order ∧
      ∀ t, t ∈ order ↔ Needed (parseManifest manifest) targets t := by
  obtain ⟨needed, hc, ⟨h, -⟩ | ⟨-, r, hr, he⟩⟩ := plan_ok hp
  · cases h
  · obtain ⟨hnd, hpost, hmem, -⟩ := collectNeededTasks_ok hc
    obtain ⟨r', hr', hord⟩ := topoSort_of_postOrder (parseManifest_wellLinked manifest) hnd hpost
    obtain rfl : r = r' := Except.ok.inj (hr.symm.trans hr')
    obtain ⟨order', rfl, hperm, hpost'⟩ := hord hn
    obtain rfl : order = order' := by simpa using he
    exact ⟨hperm.nodup_iff.mpr hnd, hpost', fun t => hperm.mem_iff.trans (hmem t)⟩

/-- **Serial run safety.**  However the calls of the passes end, the loop over the sorted array
starts `execute_task` only on a task whose dependencies have all ended well, and while no task
has failed; it leaves a block of such tasks, then at most one that failed, then pending ones;
and `overall_failed` is set exactly if a task failed. -/
theorem serial_run_safe (hn : ((parseManifest manifest).map Task.name).Nodup)
    (hp : plan moves fuel manifest targets = .ok (.sorted order)) (o : TaskPtr → PassOutcome) :
    ∃ run, mainLoop o order (parseManifest manifest) = .ok run ∧
      (∀ t tasks, (t, tasks) ∈ run.started →
        t ∈ order ∧
        (∀ u ∈ order, DependsOn (parseManifest manifest) t u →
          statusOf tasks u = some .skipped ∨ statusOf tasks u = some .success) ∧
        ∀ u, statusOf tasks u ≠ some .failed) ∧
      (∃ done rest, order = done ++ rest ∧
        (∀ t ∈ done, statusOf run.tasks t = some .skipped ∨ statusOf run.tasks t = some .success) ∧
        (rest = [] ∨ ∃ t pending, rest = t :: pending ∧ statusOf run.tasks t = some .failed ∧
          ∀ u ∈ pending, statusOf run.tasks u = some .pending)) ∧
      (run.failed = true ↔ ∃ t, statusOf run.tasks t = some .failed) := by
  obtain ⟨hnd, hpost, hmem⟩ := plan_sorted hp hn
  have hlt : ∀ t ∈ order, t < (parseManifest manifest).length := fun t ht => ((hmem t).mp ht).lt
  have hpend : ∀ u st, statusOf (parseManifest manifest) u = some st → st = .pending := by
    intro u st h
    by_cases hu : u < (parseManifest manifest).length
    · rw [statusOf_parseManifest hu] at h
      exact (Option.some.inj h).symm
    · rw [statusOf, List.getElem?_eq_none (Nat.le_of_not_lt hu)] at h
      cases h
  have hgood : ∀ {tasks : TaskList} {u}, (∃ st ∈ statusOf tasks u, st.Good) →
      statusOf tasks u = some .skipped ∨ statusOf tasks u = some .success := by
    rintro tasks u ⟨st, hst, rfl | rfl⟩
    · exact .inl hst
    · exact .inr hst
  obtain ⟨run, hrun, done, rest, hend⟩ := mainLoop_spec o hnd hlt
  refine ⟨run, hrun, fun t tasks hx => ?_,
    ⟨done, rest, hend.split, fun t ht => hgood (hend.good t ht), ?_⟩, ?_, ?_⟩
  · obtain ⟨before, after, he, hb, hsame⟩ := hend.started _ hx
    refine ⟨by simp [he], fun u _ hu => hgood (hb u (hpost.before he hu)), fun u hu => ?_⟩
    by_cases hub : u ∈ before
    · rcases hgood (hb u hub) with h | h <;> simp [h] at hu
    · rw [hsame u hub] at hu
      exact absurd (hpend u _ hu) (by simp)
  · cases rest with
    | nil => exact .inl rfl
    | cons t pending =>
      refine .inr ⟨t, pending, rfl, hend.first t rfl, fun u hu => ?_⟩
      obtain ⟨-, hrest, hdisj⟩ := List.nodup_append.mp (hend.split ▸ hnd)
      have hud : u ∉ done := fun h => hdisj u h u (List.mem_cons_of_mem _ hu) rfl
      have hut : u ∉ (t :: pending).head? := by
        rintro ⟨⟩
        exact (List.nodup_cons.mp hrest).1 hu
      rw [hend.others u hud hut]
      exact statusOf_parseManifest (hlt u (by simp [hend.split, hu]))
  · rw [hend.flag]
    intro hne
    exact ⟨rest.head hne, hend.first _ (List.head?_eq_some_head hne)⟩
  · rintro ⟨t, ht⟩
    rw [hend.flag]
    rintro rfl
    by_cases htd : t ∈ done
    · rcases hgood (hend.good t htd) with h | h <;> simp [h] at ht
    · rw [hend.others t htd (by simp)] at ht
      exact absurd (hpend t _ ht) (by simp)

/-- The theorem at a chain of three tasks, the second of which has a command that fails. -/
theorem serial_run_safe_chain :
    let manifest := ascii
      "task a \x7b\n\x7d\ntask b \x7b\n deps = a\n\x7d\ntask c \x7b\n deps = b\n\x7d\n"
    let o : TaskPtr → PassOutcome := fun t =>
      ⟨some (ascii "k"), none, .miss, if t = 1 then 256 else 0, some (ascii "r"), true⟩
    plan (fun _ => false) 4 manifest [ascii "c"] = .ok (.sorted [0, 1, 2]) ∧
      ∃ run, mainLoop o [0, 1, 2] (parseManifest manifest) = .ok run ∧
        (∀ t tasks, (t, tasks) ∈ run.started → ∀ u, statusOf tasks u ≠ some .failed) ∧
        (run.failed = true ↔ ∃ t, statusOf run.tasks t = some .failed) := by
  intro manifest o
  have hn : ((parseManifest manifest).map Task.name).Nodup := by decide
  have hp : plan (fun _ => false) 4 manifest [ascii "c"] = .ok (.sorted [0, 1, 2]) := by decide
  obtain ⟨run, hrun, hstarted, -, hflag⟩ := serial_run_safe hn hp o
  exact ⟨hp, run, hrun, fun t tasks hx => (hstarted t tasks hx).2.2, hflag⟩

/-! ## 4. The loop over a tree -/

section Tree

variable {sys : System} {fs fs₁ : FS} {e : Exec}

theorem ensureTaskHash_or {ok : Bool} {task' : Task}
    (h : ensureTaskHash fs task = .ok (ok, task', fs₁)) :
    ok = false ∧ task.taskHash = none ∧ task' = task ∨
      ok = true ∧ ∃ computed h, task.taskHash.or computed = some h ∧
        task' = { task with taskHash := some h } := by
  rw [ensureTaskHash] at h
  cases hkey : task.taskHash with
  | some key =>
    simp only [hkey, Except.ok.injEq, Prod.mk.injEq] at h
    obtain ⟨rfl, rfl, -⟩ := h
    exact .inr ⟨rfl, none, key, rfl, by rw [← hkey]⟩
  | none =>
    simp only [hkey, computeTaskHash] at h
    split at h
    · cases h
      exact .inl ⟨rfl, rfl, rfl⟩
    · split at h
      · cases h
        exact .inr ⟨rfl, some _, _, rfl, rfl⟩
      · cases h

theorem tryLoadTaskRecord_or {hit : Int} {task' : Task}
    (h : tryLoadTaskRecord fs task = .ok (hit, task', fs₁)) :
    hit ≠ 1 ∧ task' = task ∨
      hit = 1 ∧ ∃ r, task' = { task with resultHash := some r, status := .skipped } := by
  unfold tryLoadTaskRecord at h
  split at h
  · cases h
    exact .inl ⟨by decide, rfl⟩
  split at h
  · cases h
    exact .inl ⟨by decide, rfl⟩
  split at h
  · cases h
    exact .inl ⟨by decide, rfl⟩
  split at h
  · cases h
  · cases h
    exact .inr ⟨rfl, _, rfl⟩

/-- A task that is run fails at its command or ends as its record does. -/
theorem runTask_or (h : runTask sys fs task = .ok e) :
    e.ok = false ∧ e.task = { task with status := .failed } ∨
      ∃ r, e.task = { task with
        resultHash := some r, status := if e.ok then .success else .failed } := by
  simp only [runTask, bind, Except.bind] at h
  split at h
  · cases h
    exact .inl ⟨rfl, rfl⟩
  · rw [computeResultHash] at h
    simp only at h
    split at h
    · cases h
    · rename_i hres
      split at hres
      · cases hres
        split at h
        · cases h
          exact .inr ⟨_, rfl⟩
        · cases h
          exact .inr ⟨_, rfl⟩
      · cases hres

/-- `execute_task` on a task with its hash is a case of `executeTaskWith`. -/
theorem executeTask_with {key : Bytes} (hkey : task.taskHash = some key)
    (h : executeTask sys fs task = .ok e) : ∃ p, executeTaskWith p task = (e.ok, e.task) := by
  rw [executeTask_hashed hkey] at h
  have htask : { task with taskHash := some key } = task := by rw [← hkey]
  rcases htry : tryLoadTaskRecord fs { task with status := .running } with _ | ⟨hit, task', fs₁⟩
  · rw [htry] at h
    cases h
  rw [htry] at h
  rcases tryLoadTaskRecord_or htry with ⟨hhit, rfl⟩ | ⟨rfl, r, rfl⟩
  · simp only [if_neg hhit] at h
    rcases runTask_or h with ⟨hok, he⟩ | ⟨r, he⟩
    · refine ⟨⟨none, none, .miss, 1, none, false⟩, ?_⟩
      rw [hok, he]
      simp [executeTaskWith, hkey]
    · refine ⟨⟨none, none, .miss, 0, some r, e.ok⟩, ?_⟩
      rw [he]
      cases hok : e.ok <;> simp [executeTaskWith, hkey]
  · cases h
    refine ⟨⟨none, none, .hit r, 0, none, false⟩, ?_⟩
    simp [executeTaskWith, hkey]

/-- A pass over a tree is a case of `passWith`. -/
theorem mainTask_with (h : mainTask sys fs task = .ok e) :
    ∃ p, (passWith p task).ok = e.ok ∧ (passWith p task).task = e.task := by
  rw [mainTask] at h
  rcases hens : ensureTaskHash fs task with _ | ⟨ok, task', fs₁⟩ <;> rw [hens] at h
  · cases h
  rcases ensureTaskHash_or hens with ⟨rfl, hnone, rfl⟩ | ⟨rfl, computed, key, hkey, rfl⟩
  · cases h
    refine ⟨⟨none, none, .miss, 0, none, false⟩, ?_⟩
    simp [passWith, hnone]
  · obtain ⟨p, hp⟩ := executeTask_with rfl
      (show executeTask sys fs₁ { task with taskHash := some key } = .ok e from h)
    refine ⟨{ p with mainHash := computed }, ?_⟩
    simp only [passWith, hkey]
    exact Prod.mk.inj hp

theorem mainLoop_congr {o o' : TaskPtr → PassOutcome} (h : ∀ t ∈ order, o t = o' t) :
    mainLoop o order tasks = mainLoop o' order tasks := by
  induction order generalizing tasks with
  | nil => rfl
  | cons t order ih =>
    have ih' : ∀ tasks, mainLoop o order tasks = mainLoop o' order tasks :=
      fun tasks => ih fun u hu => h u (List.mem_cons_of_mem _ hu)
    simp only [mainLoop, h t List.mem_cons_self, ih']

/-- **The loop over a tree** is the loop for some outcome of its passes. -/
theorem runTasks_mainLoop {sys : TaskPtr → System} (hnd : order.Nodup) {w : World} {r : MainRun}
    (h : runTasks sys order w = .ok r) :
    ∃ o started, mainLoop o order w.tasks = .ok ⟨!r.ok, r.world.tasks, started⟩ := by
  induction order generalizing w r with
  | nil =>
    cases h
    exact ⟨fun _ => ⟨none, none, .miss, 0, none, false⟩, [], rfl⟩
  | cons t order ih =>
    obtain ⟨ht, hnd⟩ := List.nodup_cons.mp hnd
    rw [runTasks] at h
    cases htask : w.tasks[t]? with
    | none => simp [htask] at h
    | some task =>
      simp only [htask] at h
      cases hm : mainTask (sys t) w.fs task with
      | error err => simp [hm] at h
      | ok e =>
        simp only [hm] at h
        obtain ⟨p, hok, hp⟩ := mainTask_with hm
        cases he : e.ok with
        | false =>
          rw [he, if_neg (by simp)] at h
          cases h
          refine ⟨fun _ => p, (passWith p task).given.toList.map fun given =>
            (t, w.tasks.set t given), ?_⟩
          rw [mainLoop, htask]
          simp only [hok, he, hp]
          rfl
        | true =>
          rw [he, if_pos rfl] at h
          cases hr : runTasks sys order ⟨w.tasks.set t e.task, e.fs⟩ with
          | error err => simp [hr] at h
          | ok r' =>
            simp only [hr, Except.ok.injEq] at h
            obtain rfl := h
            obtain ⟨o, started, hrun⟩ := ih hnd hr
            refine ⟨Function.update o t p, ((passWith p task).given.toList.map fun given =>
              (t, w.tasks.set t given)) ++ started, ?_⟩
            rw [mainLoop, htask]
            simp only [Function.update_self, hok, he, hp, if_true]
            rw [mainLoop_congr fun u hu => Function.update_of_ne (ne_of_mem_of_not_mem hu ht) _ _,
              hrun]

end Tree

end ReproVM
