/-
# What the exit status tells

The two entry points, from their arguments to the status they return.  Both return 0 when nothing
was collected and when everything that was collected ended well.  That says nothing of a target
that the manifest does not define: `collect_needed_tasks` drops it.  In the parallel one a
collected task can be left out as well, where another task has its name.
-/
import ReproVM.ParallelNames
import ReproVM.SerialRun

namespace ReproVM

open Bytes (ascii)
open Lib (Run)

/-! ## 1. The entry points -/

/-- What an entry point finds. -/
structure MainEnv where
  /-- `cas_init` returns 0, and `parse_manifest` can read the file -/
  casInit : Bool
  readable : Bool
  /-- the content of that file -/
  manifest : Bytes
  /-- what `get_cpu_count` returns -/
  cpus : Int
  /-- the calls of `realloc` that move the array, and a bound on the depth of the walk -/
  moves : Nat → Bool
  fuel : Nat

/-- `main` of `main.c` on `argv[1 ..]`: the status it returns, and the tasks it leaves. -/
def serialMain (env : MainEnv) (o : TaskPtr → PassOutcome) : List Bytes →
    Except Fault (Nat × TaskList)
  | [] => .ok (1, [])
  | _ :: targets =>
    if ¬ env.casInit ∨ ¬ env.readable then .ok (1, [])
    else
      let list := parseManifest env.manifest
      match plan env.moves env.fuel env.manifest targets with
      | .error e => .error e
      | .ok .noTasks => .ok (0, list)
      | .ok .cycle => .ok (1, list)
      | .ok (.sorted sorted) =>
        match mainLoop o sorted list with
        | .error e => .error e
        | .ok run => .ok (if run.failed then 1 else 0, run.tasks)

/-- `-j N` and `--jobs N`: the number of workers and the arguments that are left; `none` for an
invalid count. -/
def takeJobs (cpus : Int) : List Bytes → Option (Int × List Bytes)
  | flag :: n :: rest =>
    if flag = ascii "-j" ∨ flag = ascii "--jobs" then
      if atoi n ≤ 0 then none else some (atoi n, rest)
    else some (cpus, flag :: n :: rest)
  | args => some (cpus, args)

/-- What `main` of `reprovm_parallel.c` comes to: a status, or `execute_tasks_parallel`, whose
result it returns. -/
inductive ParallelEntry
  | exit (status : Nat)
  | execute (a : ParallelArgs)

/-- `main` of `reprovm_parallel.c` on `argv[1 ..]`. -/
def parallelMain (env : MainEnv) (args : List Bytes) : Except Fault ParallelEntry :=
  match args with
  | [] => .ok (.exit 1)
  | _ =>
    match takeJobs env.cpus args with
    | none | some (_, []) => .ok (.exit 1)
    | some (maxWorkers, _ :: targets) =>
      if ¬ env.casInit ∨ ¬ env.readable then .ok (.exit 1)
      else
        let list := parseManifest env.manifest
        match collectNeededTasks env.moves env.fuel list targets with
        | .error e => .error e
        | .ok needed =>
          if needed = [] then .ok (.exit 0)
          else .ok (.execute ⟨list, needed, workerCount maxWorkers⟩)

/-! ## 2. What was requested -/

/-- Every requested task, of those in the manifest when none is named, is defined there and
satisfies `good`. -/
def RequestedDone (list : TaskList) (targets : List Bytes) (good : TaskPtr → Prop) : Prop :=
  if targets = [] then ∀ t < list.length, good t
  else ∀ d ∈ targets, ∃ t, findTask list d = some t ∧ good t

/-- Every target is the name of a task. -/
def AllKnown (list : TaskList) (targets : List Bytes) : Prop :=
  ∀ d ∈ targets, findTask list d ≠ none

variable {list : TaskList} {targets : List Bytes} {good : TaskPtr → Prop} {env : MainEnv}

theorem requestedDone_iff : RequestedDone list targets good ↔
    AllKnown list targets ∧ ∀ t ∈ startTasks list targets, good t := by
  rw [RequestedDone, AllKnown, startTasks]
  by_cases h : targets = []
  · simp [h]
  · rw [if_neg h, if_neg h]
    constructor
    · intro hdone
      refine ⟨fun d hd hn => ?_, fun t ht => ?_⟩
      · obtain ⟨t, ht, -⟩ := hdone d hd
        rw [hn] at ht
        cases ht
      · obtain ⟨d, hd, hf⟩ := List.mem_filterMap.mp ht
        obtain ⟨u, hu, hgood⟩ := hdone d hd
        obtain rfl : u = t := Option.some.inj (hu.symm.trans hf)
        exact hgood
    · rintro ⟨hknown, hall⟩ d hd
      obtain ⟨t, ht⟩ := Option.ne_none_iff_exists'.mp (hknown d hd)
      exact ⟨t, ht, hall t (List.mem_filterMap.mpr ⟨d, hd, ht⟩)⟩

theorem startTasks_sub {moves : Nat → Bool} {fuel : Nat} {needed : List TaskPtr}
    (hc : collectNeededTasks moves fuel list targets = .ok needed) :
    ∀ t ∈ startTasks list targets, t ∈ needed := by
  obtain ⟨-, -, hmem, -⟩ := collectNeededTasks_ok hc
  exact fun t ht => (hmem t).mpr ⟨t, ht, .refl⟩

/-! ## 3. The serial entry point -/

/-- Where `main` returns 0, the known targets have ended well. -/
theorem serialMain_zero {o : TaskPtr → PassOutcome} {path : Bytes} {tasks : TaskList}
    (h : serialMain env o (path :: targets) = .ok (0, tasks)) :
    ∀ t ∈ startTasks (parseManifest env.manifest) targets, ∃ st ∈ statusOf tasks t, st.Good := by
  rw [serialMain] at h
  split at h
  · simp at h
  dsimp only at h
  cases hp : plan env.moves env.fuel env.manifest targets with
  | error e => simp [hp] at h
  | ok p =>
    simp only [hp] at h
    cases p with
    | noTasks =>
      obtain ⟨needed, hc, ⟨-, rfl⟩ | ⟨-, r, -, hr⟩⟩ := plan_ok hp
      · exact fun t ht => absurd (startTasks_sub hc t ht) (by simp)
      · cases r <;> cases hr
    | cycle => simp at h
    | sorted order =>
      obtain ⟨needed, hc, hperm⟩ := plan_sorted_perm hp
      obtain ⟨hnd, -, hmem, -⟩ := collectNeededTasks_ok hc
      have hlt : ∀ t ∈ order, t < (parseManifest env.manifest).length :=
        fun t ht => ((hmem t).mp (hperm.mem_iff.mp ht)).lt
      obtain ⟨run, hrun, done, rest, hend⟩ := mainLoop_spec o (hperm.nodup_iff.mpr hnd) hlt
      simp only [hrun, Except.ok.injEq, Prod.mk.injEq] at h
      obtain ⟨hf, rfl⟩ := h
      have hrest : rest = [] := by
        by_contra hne
        rw [if_pos (hend.flag.mpr hne)] at hf
        cases hf
      intro t ht
      refine hend.good t ?_
      have := hperm.mem_iff.mpr (startTasks_sub hc t ht)
      rwa [hend.split, hrest, List.append_nil] at this

/-! ## 4. The parallel entry point -/

theorem parallelMain_cases {args : List Bytes} {maxWorkers : Int} {path : Bytes}
    (hargs : takeJobs env.cpus args = some (maxWorkers, path :: targets)) {r : ParallelEntry}
    (h : parallelMain env args = .ok r) : r = .exit 1 ∨
      ∃ needed, collectNeededTasks env.moves env.fuel (parseManifest env.manifest) targets
          = .ok needed ∧
        r = if needed = [] then .exit 0
          else .execute ⟨parseManifest env.manifest, needed, workerCount maxWorkers⟩ := by
  cases args with
  | nil =>
    cases h
    exact .inl rfl
  | cons arg args =>
    simp only [parallelMain, hargs] at h
    split at h
    · cases h
      exact .inl rfl
    · cases hc : collectNeededTasks env.moves env.fuel (parseManifest env.manifest) targets with
      | error e => simp [hc] at h
      | ok needed =>
        simp only [hc] at h
        refine .inr ⟨needed, rfl, ?_⟩
        split at h <;> rename_i hne
        · rw [if_pos hne]
          exact (Except.ok.inj h).symm
        · rw [if_neg hne]
          exact (Except.ok.inj h).symm

/-- The arguments of `execute_tasks_parallel`. -/
theorem linked_of_collect {moves : Nat → Bool} {fuel : Nat} {manifest : Bytes}
    {needed : List TaskPtr} (workers : Nat)
    (hc : collectNeededTasks moves fuel (parseManifest manifest) targets = .ok needed) :
    ParallelArgs.Linked ⟨parseManifest manifest, needed, workers⟩ := by
  obtain ⟨hnd, -, hmem, -⟩ := collectNeededTasks_ok hc
  exact ⟨parseManifest_wellLinked manifest, hnd, fun t ht => ((hmem t).mp ht).lt⟩

/-- **What a status of 0 tells.**  Where the serial entry point returns 0, every requested task is
defined and has ended well if and only if every target is known.  Where the parallel one does, if
and only if besides no completion of the run pushed another task, of the same name, for the count
of a requested one. -/
theorem exit_status_iff (env : MainEnv) :
    (∀ o path targets tasks, serialMain env o (path :: targets) = .ok (0, tasks) →
      (RequestedDone (parseManifest env.manifest) targets
          (fun t => ∃ st ∈ statusOf tasks t, st.Good) ↔
        AllKnown (parseManifest env.manifest) targets)) ∧
    ∀ args maxWorkers path targets, takeJobs env.cpus args = some (maxWorkers, path :: targets) →
      (parallelMain env args = .ok (.exit 0) →
        (RequestedDone (parseManifest env.manifest) targets (fun _ => TaskStatus.Good .pending) ↔
          AllKnown (parseManifest env.manifest) targets)) ∧
      ∀ a tr s, parallelMain env args = .ok (.execute a) →
        Run (ParallelStep a) (parallelInit a) tr s → ParallelReturns a s 0 →
        (RequestedDone (parseManifest env.manifest) targets (fun t => (s.status t).Good) ↔
          AllKnown (parseManifest env.manifest) targets ∧
            ∀ t ∈ startTasks (parseManifest env.manifest) targets,
              Run (StepFor a t) (parallelInit a) tr s) := by
  refine ⟨fun o path targets tasks h => ?_, fun args maxWorkers path targets hargs =>
    ⟨fun h => ?_, fun a tr s h hrun hret => ?_⟩⟩
  · rw [requestedDone_iff, and_iff_left_iff_imp]
    exact fun _ => serialMain_zero h
  · rw [requestedDone_iff, and_iff_left_iff_imp]
    intro _ t ht
    obtain he | ⟨needed, hc, he⟩ := parallelMain_cases hargs h
    · cases he
    · split at he <;> rename_i hne
      · have hmem := startTasks_sub hc t ht
        rw [hne] at hmem
        cases hmem
      · cases he
  · obtain he | ⟨needed, hc, he⟩ := parallelMain_cases hargs h
    · cases he
    split at he
    · cases he
    cases he
    rw [requestedDone_iff]
    refine and_congr_right fun _ => forall₂_congr fun t ht => ?_
    exact good_iff_of_returns (linked_of_collect _ hc) (workerCount_pos maxWorkers) hrun hret
      (startTasks_sub hc t ht)

/-- The theorem at runs of both that are asked for the one task there is. -/
theorem exit_status_iff_single :
    let env : MainEnv := ⟨true, true, ascii "task a \x7b\n\x7d\n", 4, fun _ => false, 2⟩
    let o : TaskPtr → PassOutcome := fun _ => ⟨some [], none, .miss, 0, some [], true⟩
    let a : ParallelArgs := ⟨parseManifest env.manifest, [0], 1⟩
    let tr : List ParallelEvent := [.spawn, .mainLock, .mainBroadcast, .lock 0, .pop 0 0,
      .hash 0 0 true, .lookup 0 0 true, .lock 0, .done 0 0, .lock 0, .exit 0, .join]
    (∃ tasks, serialMain env o [ascii "m", ascii "a"] = .ok (0, tasks) ∧
      RequestedDone (parseManifest env.manifest) [ascii "a"]
        fun t => ∃ st ∈ statusOf tasks t, st.Good) ∧
      parallelMain env [ascii "-j", ascii "1", ascii "m", ascii "a"] = .ok (.execute a) ∧
      ∃ s, Run (ParallelStep a) (parallelInit a) tr s ∧ ParallelReturns a s 0 ∧
        RequestedDone (parseManifest env.manifest) [ascii "a"] fun t => (s.status t).Good := by
  intro env o a tr
  have hknown : AllKnown (parseManifest env.manifest) [ascii "a"] := by
    intro d hd
    rw [List.mem_singleton.mp hd]
    decide
  have hpar : parallelMain env [ascii "-j", ascii "1", ascii "m", ascii "a"] = .ok (.execute a) := rfl
  obtain ⟨tasks, hserial⟩ : ∃ tasks, serialMain env o [ascii "m", ascii "a"] = .ok (0, tasks) :=
    ⟨_, rfl⟩
  refine ⟨⟨tasks, hserial, ?_⟩, hpar, ?_⟩
  · exact ((exit_status_iff env).1 o (ascii "m") [ascii "a"] _ hserial).mpr hknown
  have hend : (tr.foldlM (parallelStep a) (parallelInit a)).map (fun s => (s.main, s.failed))
      = some (.join 1, false) := by decide +kernel
  obtain ⟨s, hs, hsf⟩ := Option.map_eq_some_iff.mp hend
  obtain ⟨hm, hf⟩ := Prod.mk.inj hsf
  have hrun := Run.of_foldlM hs
  have hret : ParallelReturns a s 0 := by
    rw [ParallelReturns, if_neg (by simp [a])]
    exact ⟨hm, by simp [hf]⟩
  refine ⟨s, hrun, hret, ?_⟩
  refine (((exit_status_iff env).2 _ 1 (ascii "m") [ascii "a"] rfl).2 a tr s hpar hrun hret).mpr
    ⟨hknown, fun t ht => hrun.imp fun s e s' hs => ⟨hs, ?_⟩⟩
  have ha : a.Linked := ⟨parseManifest_wellLinked _, by decide, by decide⟩
  refine not_pushesOther_of_nodup ha (by decide) ?_
  have hstart : startTasks (parseManifest env.manifest) [ascii "a"] = [0] := by decide
  rwa [hstart] at ht

/-- A target that no task has the name of: both return 0, and there is nothing to finish. -/
theorem unknown_target_exits_zero :
    let env : MainEnv := ⟨true, true, ascii "task a \x7b\n\x7d\n", 4, fun _ => false, 2⟩
    (∀ o, serialMain env o [ascii "m", ascii "foo"] = .ok (0, parseManifest env.manifest)) ∧
      parallelMain env [ascii "m", ascii "foo"] = .ok (.exit 0) ∧
      ∀ good, ¬ RequestedDone (parseManifest env.manifest) [ascii "foo"] good := by
  intro env
  refine ⟨fun o => rfl, rfl, fun good h => ?_⟩
  rw [requestedDone_iff] at h
  exact h.1 (ascii "foo") (List.mem_singleton_self _) (by decide)

/-- Two tasks of a name: the second is pushed for the count of the first, which `x` names, and
the call returns 0 without having run it. -/
theorem namesake_runs_instead :
    let env : MainEnv := ⟨true, true, ascii
      "task a \x7b\n\x7d\ntask b \x7b\n\x7d\ntask x \x7b\n deps = a, b\n\x7d\ntask x \x7b\n deps = a\n\x7d\n",
      1, fun _ => false, 3⟩
    let a : ParallelArgs := ⟨parseManifest env.manifest, [0, 1, 2], 1⟩
    parallelMain env [ascii "m", ascii "x"] = .ok (.execute a) ∧
      findTask (parseManifest env.manifest) (ascii "x") = some 2 ∧
      ∃ tr s, Run (ParallelStep a) (parallelInit a) tr s ∧ ParallelReturns a s 0 ∧
        s.status 2 = .pending := by
  intro env a
  have hlist : parseManifest env.manifest = [{ taskNew (ascii "a") with dependents := [2, 3] },
      { taskNew (ascii "b") with dependents := [2] },
      { taskNew (ascii "x") with deps := [ascii "a", ascii "b"] },
      { taskNew (ascii "x") with deps := [ascii "a"] }] := by
    decide +kernel
  have ha : a = ⟨_, [0, 1, 2], 1⟩ := congrArg (ParallelArgs.mk · [0, 1, 2] 1) hlist
  have hjobs : takeJobs env.cpus [ascii "m", ascii "x"] = some (1, [ascii "m", ascii "x"]) := by
    decide
  have hc : collectNeededTasks env.moves env.fuel (parseManifest env.manifest) [ascii "x"]
      = .ok [0, 1, 2] := by
    rw [hlist]
    decide +kernel
  have hmain : parallelMain env [ascii "m", ascii "x"] = .ok (.execute a) := by
    simp only [parallelMain, hjobs, hc]
    rfl
  have hend : (([.spawn, .mainLock, .mainBroadcast,
      .lock 0, .pop 0 0, .hash 0 0 true, .lookup 0 0 true, .lock 0, .done 0 0,
      .lock 0, .pop 0 1, .hash 0 1 true, .lookup 0 1 true, .lock 0, .done 0 1,
      .lock 0, .pop 0 3, .hash 0 3 true, .lookup 0 3 true, .lock 0, .done 0 3,
      .lock 0, .exit 0, .join] : List ParallelEvent).foldlM (parallelStep a) (parallelInit a)).map
        (fun s => (s.main, s.failed, s.status 2)) = some (.join 1, false, .pending) := by
    rw [ha]
    decide +kernel
  obtain ⟨s, hs, hsf⟩ := Option.map_eq_some_iff.mp hend
  simp only [Prod.mk.injEq] at hsf
  obtain ⟨hm, hf, hst⟩ := hsf
  refine ⟨hmain, by rw [hlist]; decide, _, s, Run.of_foldlM hs, ?_, hst⟩
  rw [ParallelReturns, if_neg (by simp [a])]
  exact ⟨hm, by simp [hf]⟩

/-- With distinct names, and known targets, a status of 0 tells the truth. -/
theorem requestedDone_of_nodup (hn : ((parseManifest env.manifest).map Task.name).Nodup)
    (hknown : AllKnown (parseManifest env.manifest) targets) {args : List Bytes} {maxWorkers : Int}
    {path : Bytes} (hargs : takeJobs env.cpus args = some (maxWorkers, path :: targets))
    {a : ParallelArgs} {tr : List ParallelEvent} {s : ParallelState}
    (h : parallelMain env args = .ok (.execute a))
    (hrun : Run (ParallelStep a) (parallelInit a) tr s) (hret : ParallelReturns a s 0) :
    RequestedDone (parseManifest env.manifest) targets (fun t => (s.status t).Good) := by
  obtain he | ⟨needed, hc, he⟩ := parallelMain_cases hargs h
  · cases he
  split at he
  · cases he
  cases he
  have ha := linked_of_collect (workerCount maxWorkers) hc
  rw [requestedDone_iff]
  refine ⟨hknown, fun t ht => ?_⟩
  have hts := startTasks_sub hc t ht
  refine (good_iff_of_returns ha (workerCount_pos maxWorkers) hrun hret hts).mpr ?_
  exact hrun.imp fun s e s' hs => ⟨hs, not_pushesOther_of_nodup ha hn hts⟩

end ReproVM
