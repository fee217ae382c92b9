/-
# The workers end as the loop of `main`

Where the loop of `main` ends well, the workers are never stuck before all of them have exited, and
then they have left what the loop leaves: the tasks with their hashes and statuses, and the tree
(`Job.Given.same_world`).  Both are runs of the parts to the end, and all of these end alike, as
long as the hashes tell apart what the loop leaves.  Two task texts of one hash are enough to
break it: whichever task is looked up second is skipped, and in the loop that is the second one
of the array.
-/
import ReproVM.CommandTasks
import ReproVM.ParallelReturn
import ReproVM.Reruns
import ReproVM.SerialParts
import ReproVM.Workers

namespace ReproVM

open Bytes (ascii)
open Lib (PostOrder Run)
open Relation

variable {j : Job} {subset : List TaskPtr} {workers : Nat} {x y : Workers} {p z : Parts}
  {e : ParallelEvent} {tr : List ParallelEvent} {w : Nat} {t : TaskPtr}

/-! ## 1. Something can happen -/

section Outcomes

variable {a : ParallelArgs} {s : ParallelState}

/-- How a part ends is up to the step. -/
theorem exists_hash (hpc : s.pc w = .hash t) (ok : Bool) :
    ∃ s', ParallelStep a s (.hash w t ok) s' := ⟨_, if_pos hpc⟩

theorem exists_lookup (hpc : s.pc w = .lookup t) (hit : Bool) :
    ∃ s', ParallelStep a s (.lookup w t hit) s' := ⟨_, if_pos hpc⟩

theorem exists_command (hpc : s.pc w = .command t) (ok : Bool) :
    ∃ s', ParallelStep a s (.command w t ok) s' := ⟨_, if_pos hpc⟩

theorem exists_record (hpc : s.pc w = .record t) (ok : Bool) :
    ∃ s', ParallelStep a s (.record w t ok) s' := ⟨_, if_pos hpc⟩

theorem hash_pc {ok : Bool} {s' : ParallelState} (h : ParallelStep a s (.hash w t ok) s') :
    s.pc w = .hash t := by
  cases ok <;> exact (parallelStep_iff.mp h).1

theorem lookup_pc {hit : Bool} {s' : ParallelState} (h : ParallelStep a s (.lookup w t hit) s') :
    s.pc w = .lookup t := by
  cases hit <;> exact (parallelStep_iff.mp h).1

theorem command_pc {ok : Bool} {s' : ParallelState} (h : ParallelStep a s (.command w t ok) s') :
    s.pc w = .command t := by
  cases ok <;> exact (parallelStep_iff.mp h).1

theorem record_pc {ok : Bool} {s' : ParallelState} (h : ParallelStep a s (.record w t ok) s') :
    s.pc w = .record t := by
  cases ok <;> exact (parallelStep_iff.mp h).1

end Outcomes

/-- **No part crashes**: what the executor could do, the workers can do on their tree. -/
theorem Matches.goes_on (h : Matches tr x p) (hg : j.Given subset workers) (hh : HoldInv tr x.ctx)
    (hq : QueueInv (j.args subset workers) tr x.ctx) (hp : PartInv j p) (ha : Toward j z p)
    (hz : AllDone j z) (hen : Enabled (j.args subset workers) x.ctx) :
    ¬ x.Stuck (j.args subset workers) j.sys := by
  intro hstuck
  obtain ⟨e, s', hs, hsp⟩ := hen
  have hgo : ∀ e' s'' w', ParallelStep (j.args subset workers) x.ctx e' s'' →
      x.world.after j.sys e' = some w' → (∀ w, e' ≠ .spurious w) → False :=
    fun e' s'' w' hs' hw' hne => by
      obtain ⟨v, hv⟩ := hstuck e' ⟨s'', w'⟩ (workersStep_iff.mpr ⟨hs', hw'⟩)
      exact hne v hv
  cases e with
  | pop w t =>
    obtain ⟨rest, hr, -, -⟩ := parallelStep_iff.mp hs
    have hmem : t ∈ popped tr ++ x.ctx.ready := by simp [hr]
    have ht : t ∈ j.order := (hg.mem t).mp (hq.sub t hmem)
    have hnew : t ∉ popped tr := by
      have hnd := hq.nodup
      rw [hr, List.nodup_append] at hnd
      exact fun ht => hnd.2.2 t ht t List.mem_cons_self rfl
    obtain ⟨task, htask⟩ := hg.ok.declared ht
    have hat := hp.tasks t ht task htask
    rw [h.waiting t hnew] at hat
    obtain ⟨st, hst⟩ := hat
    rw [h.world] at hst
    obtain ⟨w', hw'⟩ := World.part_intro (b := true)
      (f := fun task => .ok (true, { task with status := .running }, x.world.fs)) hst rfl
    exact hgo _ _ w' hs hw' hsp
  | hash w t ok =>
    have hpc := hash_pc hs
    obtain ⟨ht, hdeps⟩ := h.below hg hh hq (w := w) (t := t) (by rw [hpc]; rfl)
    obtain ⟨task, htask⟩ := hg.ok.declared ht
    obtain ⟨ok', w', hw', -⟩ := ha.hash_ends hp hz hg.ok ht htask (h.stage_eq hpc rfl rfl) hdeps
    rw [h.world] at hw'
    obtain ⟨s'', hs''⟩ := exists_hash hpc ok'
    exact hgo _ s'' w' hs'' hw' (by simp)
  | lookup w t hit =>
    have hpc := lookup_pc hs
    obtain ⟨ht, -⟩ := h.below hg hh hq (w := w) (t := t) (by rw [hpc]; rfl)
    obtain ⟨hit', w', hw'⟩ := ha.lookup_ends hp hz hg.ok ht (h.stage_eq hpc rfl rfl)
    rw [h.world] at hw'
    obtain ⟨s'', hs''⟩ := exists_lookup hpc hit'
    exact hgo _ s'' w' hs'' hw' (by simp)
  | command w t ok =>
    have hpc := command_pc hs
    obtain ⟨ht, -⟩ := h.below hg hh hq (w := w) (t := t) (by rw [hpc]; rfl)
    obtain ⟨ok', w', hw'⟩ := hp.command_ends hg.ok ht (h.stage_eq hpc rfl rfl)
    rw [h.world] at hw'
    obtain ⟨s'', hs''⟩ := exists_command hpc ok'
    exact hgo _ s'' w' hs'' hw' (by simp)
  | record w t ok =>
    have hpc := record_pc hs
    obtain ⟨ht, -⟩ := h.below hg hh hq (w := w) (t := t) (by rw [hpc]; rfl)
    obtain ⟨w', hw'⟩ := ha.record_ends hp hz hg.ok ht (h.stage_eq hpc rfl rfl)
    rw [h.world] at hw'
    obtain ⟨s'', hs''⟩ := exists_record hpc true
    exact hgo _ s'' w' hs'' hw' (by simp)
  | _ => exact hgo _ s' x.world hs rfl hsp

/-! ## 2. Nothing fails -/

/-- **No part fails** where the inputs lie outside `.reprovm`. -/
theorem Job.Given.no_failures (hg : j.Given subset workers) (hz : AllDone j z)
    (hin : j.InputsOutside) (h : WorkersRun (j.args subset workers) j.sys j.fs tr x) :
    failures tr = [] := by
  refine Run.inv (I := fun tr _ => failures tr = []) rfl ?_ h
  intro tr x e y hr hok hs
  obtain ⟨l, p, hl, hm⟩ := workers_parts hg hr hok
  obtain ⟨hp, ha⟩ := agree_run hg.ok hz hl
  obtain ⟨hh, hq⟩ := counts_run hg.args (WorkersRun.ctx hr)
  obtain ⟨hctx, hworld⟩ := workersStep_iff.mp hs
  rw [failures_append, hok, List.nil_append]
  cases e with
  | hash w t ok =>
    cases ok with
    | true => rfl
    | false =>
      have hpc := hash_pc hctx
      obtain ⟨ht, hdeps⟩ := hm.below hg hh hq (w := w) (t := t) (by rw [hpc]; rfl)
      obtain ⟨w', hw'⟩ := ha.hash_ok hp hz hg.ok hin ht (hm.stage_eq hpc rfl rfl) hdeps
      rw [hm.world] at hw'
      exact absurd (World.part_unique hworld hw') (by simp)
  | command w t ok =>
    cases ok with
    | true => rfl
    | false =>
      have hpc := command_pc hctx
      replace hworld : x.world.part t false (fun task => .ok (commandPart j.sys x.world.fs task)) =
        some y.world := hworld
      obtain ⟨ht, -⟩ := hm.below hg hh hq (w := w) (t := t) (by rw [hpc]; rfl)
      obtain ⟨w', hw'⟩ := ha.command_ok hp hz hg.ok ht (hm.stage_eq hpc rfl rfl)
      rw [hm.world] at hw'
      exact absurd (World.part_unique hworld hw') (by simp)
  | record w t ok =>
    cases ok with
    | true => rfl
    | false =>
      have hpc := record_pc hctx
      obtain ⟨ht, -⟩ := hm.below hg hh hq (w := w) (t := t) (by rw [hpc]; rfl)
      obtain ⟨w', hw'⟩ := ha.record_ends hp hz hg.ok ht (hm.stage_eq hpc rfl rfl)
      rw [hm.world] at hw'
      exact absurd (World.part_unique hworld hw') (by simp)
  | _ => rfl

theorem harmless_of_failures {a : ParallelArgs} (h : failures tr = []) :
    ∀ e ∈ tr, e.Harmless a := by
  intro e he
  have hnot : ∀ t, t ∈ failures tr → False := fun t ht => by simp [h] at ht
  cases e with
  | hash w t ok =>
    cases ok with
    | true => trivial
    | false => exact (hnot t (List.mem_filterMap.mpr ⟨_, he, rfl⟩)).elim
  | command w t ok =>
    cases ok with
    | true => trivial
    | false => exact (hnot t (List.mem_filterMap.mpr ⟨_, he, rfl⟩)).elim
  | record w t ok =>
    cases ok with
    | true => trivial
    | false => exact (hnot t (List.mem_filterMap.mpr ⟨_, he, rfl⟩)).elim
  | _ => trivial

/-! ## 3. The end -/

/-- Workers that are stuck have exited. -/
theorem Job.Given.exited (hg : j.Given subset workers) (hz : AllDone j z)
    (h : WorkersRun (j.args subset workers) j.sys j.fs tr x) (hok : failures tr = [])
    (hstuck : x.Stuck (j.args subset workers) j.sys) : ∀ w < workers, x.ctx.pc w = .exited := by
  intro w hw
  by_contra hne
  obtain ⟨l, p, hl, hm⟩ := workers_parts hg h hok
  obtain ⟨hp, ha⟩ := agree_run hg.ok hz hl
  obtain ⟨hh, hq⟩ := counts_run hg.args h.ctx
  have hac : ∀ t ∈ subset, ¬ SubsetCycle (j.args subset workers) t := fun t ht hc =>
    hg.ok.array.sorted.acyclic ((hg.mem t).mp ht) (TransGen.mono (fun _ _ hd => hd.1) _ _ hc)
  have hen := enabled_of_harmless hg.args hac h.ctx (harmless_of_failures hok) hw hne
  exact hm.goes_on hg hh hq hp ha hz hen hstuck

/-- When they have exited, all tasks are done. -/
theorem Matches.all_done (hm : Matches tr x p) (hg : j.Given subset workers) (hpos : 0 < workers)
    (h : WorkersRun (j.args subset workers) j.sys j.fs tr x)
    (hex : ∀ w < workers, x.ctx.pc w = .exited) : ∀ t ∈ j.order, p.stage t = .done := by
  intro t ht
  obtain ⟨hh, hq⟩ := counts_run hg.args h.ctx
  have hrem : x.ctx.remaining = 0 := by
    have := (returnInv_run hg.args h.ctx).pc 0
    rwa [hex 0 hpos] at this
  obtain ⟨hperm, -, -⟩ := all_completed hh hq hrem
  have hmem := hperm.mem_iff.mpr ((hg.mem t).mpr ht)
  rw [completed, hm.kept, List.append_nil] at hmem
  exact hm.finished t hmem

/-- **The workers end as the loop.** -/
theorem Job.Given.same_world (hg : j.Given subset workers) (hpos : 0 < workers) {run : MainRun}
    (hserial : runTasks (fun _ => j.sys) j.order ⟨j.list, j.fs⟩ = .ok run)
    (hwell : ∀ t ∈ j.order, EndedWell run.world t) (hfree : CollisionFree (j.data run.world.fs))
    (h : WorkersRun (j.args subset workers) j.sys j.fs tr x)
    (hsafe : failures tr = [] ∨ j.InputsOutside) (hstuck : x.Stuck (j.args subset workers) j.sys) :
    (∀ w < workers, x.ctx.pc w = .exited) ∧ x.world = run.world := by
  obtain ⟨l, z, hl, hinv, hworld, hdone⟩ := serial_parts hg.ok hserial hwell
  have hz : AllDone j z := ⟨hinv, hdone, hworld ▸ hfree⟩
  have hok : failures tr = [] := hsafe.elim id fun hin => hg.no_failures hz hin h
  have hex := hg.exited hz h hok hstuck
  obtain ⟨l', p, hl', hm⟩ := workers_parts hg h hok
  refine ⟨hex, ?_⟩
  rw [← hm.world, ← hworld]
  exact parts_unique hg.ok hz hl hl' (hm.all_done hg hpos h hex)

/-- **Parallel is serial.**  Take a manifest of distinct names without a cycle, tasks of distinct
commands that follow the rules of `TaskArray`, commands that depend on what they declare and write
only that, and a cache whose records name intact blobs.  Where the loop of `main` ends well, and
leaves no two contents or task texts of one hash, the workers of `execute_tasks_parallel` take a
bounded number of steps, but for wakeups without a signal; and when nothing else can happen, all
of them have exited and left the tasks and the tree as the loop leaves them. -/
theorem parallel_is_serial {moves moves' : Nat → Bool} {fuel fuel' : Nat} {manifest : Bytes}
    {targets : List Bytes} {subset order : List TaskPtr} (maxWorkers : Int) {fs : FS} {sys : System}
    {run : MainRun} (hn : ((parseManifest manifest).map Task.name).Nodup)
    (hc : collectNeededTasks moves fuel (parseManifest manifest) targets = .ok subset)
    (hp : plan moves' fuel' manifest targets = .ok (.sorted order))
    (hA : TaskArray (parseManifest manifest) order fs.cwd)
    (hcmds : DistinctCommands (parseManifest manifest) order) (hsound : Sound fs)
    (hcache : fs.node (cacheDir fs.cwd) = some .dir)
    (hwrites : CommandsWrite (fun _ => sys) (parseManifest manifest) order fs.cwd)
    (hdet : Deterministic sys (parseManifest manifest) order fs.cwd)
    (hserial : runTasks (fun _ => sys) order ⟨parseManifest manifest, fs⟩ = .ok run)
    (hwell : ∀ t ∈ order, EndedWell run.world t)
    (hfree : CollisionFree (Job.data ⟨parseManifest manifest, order, fs, sys⟩ run.world.fs))
    {tr : List ParallelEvent} {x : Workers}
    (h : WorkersRun ⟨parseManifest manifest, subset, workerCount maxWorkers⟩ sys fs tr x)
    (hsafe : failures tr = [] ∨
      ∀ t ∈ order, ∀ task, (parseManifest manifest)[t]? = some task → OutsideAll fs.cwd task.inputs) :
    tr.length ≤ (9 * workerCount maxWorkers + 10) * subset.length +
        (20 * workerCount maxWorkers + 2) + 10 * tr.countP ParallelEvent.isSpurious ∧
      (x.Stuck ⟨parseManifest manifest, subset, workerCount maxWorkers⟩ sys →
        (∀ w < workerCount maxWorkers, x.ctx.pc w = .exited) ∧ x.world = run.world) := by
  obtain ⟨-, -, hmem, -⟩ := collectNeededTasks_ok hc
  obtain ⟨-, -, hmem'⟩ := plan_sorted hp hn
  have hargs := parallelArgs_ok (workerCount maxWorkers) hn hc
  have hj : Job.Ok ⟨parseManifest manifest, order, fs, sys⟩ :=
    ⟨parseManifest_fresh manifest, parseManifest_cmd manifest,
      fun t ht => ((hmem' t).mp ht).lt, hA, hcmds, hsound, hcache, hwrites, hdet⟩
  have hg : Job.Given ⟨parseManifest manifest, order, fs, sys⟩ subset (workerCount maxWorkers) :=
    ⟨hj, hargs, fun t => (hmem t).trans (hmem' t).symm⟩
  exact ⟨length_le_of_run hargs h.ctx, fun hstuck =>
    hg.same_world (workerCount_pos maxWorkers) hserial hwell hfree h hsafe hstuck⟩

/-- Of the two commands `a` and `b`. -/
theorem twoData_nodup : ((twoData (ascii "a") (ascii "b") (blobHash (cmdText (ascii "a")))
    (blobHash (cmdText (ascii "b")))).map blobHash).Nodup := by
  have h : ((twoData (ascii "a") (ascii "b") (blobHash (cmdText (ascii "a")))
      (blobHash (cmdText (ascii "b")))).map sha256).Nodup := by
    rw [blobHash_digest (by decide), blobHash_digest (by decide), twoData, cmdRecord, cmdRecord,
      blobHash_digest (by decide : ([] : Bytes).length < 2 ^ 61), map_sha256 (by decide +kernel)]
    decide +kernel
  have hmap : ∀ l : List Bytes, l.map blobHash = (l.map sha256).map hexEncode := fun l => by
    rw [List.map_map]
    rfl
  rw [hmap]
  exact h.map fun _ _ => hexEncode_inj

/-- Two tasks on two workers, the second of which records first. -/
theorem parallel_is_serial_two :
    ∃ (run : MainRun) (tr : List ParallelEvent) (x : Workers),
      runTasks (fun _ => idleSystem) [0, 1]
          ⟨parseManifest (twoManifest (ascii "a") (ascii "b")), (casInit workDir (ascii ".")).2⟩ =
        .ok run ∧
      WorkersRun ⟨parseManifest (twoManifest (ascii "a") (ascii "b")), [0, 1], workerCount 2⟩ idleSystem
        (casInit workDir (ascii ".")).2 tr x ∧
      (∀ w < workerCount 2, x.ctx.pc w = .exited) ∧ x.world = run.world := by
  have hc : HexWord (ascii "a") := ⟨by decide, by decide, by decide⟩
  have hc' : HexWord (ascii "b") := ⟨by decide, by decide, by decide⟩
  have hT := workDir_noStore.emptyStore
  have hdir := workDir_dir
  generalize (casInit workDir (ascii ".")).2 = T at hT hdir ⊢
  obtain ⟨hcollect, hplan⟩ := plan_two hc hc'
  have hparse := parseManifest_two hc hc'
  have hnd := twoData_nodup
  generalize hkey : blobHash (cmdText (ascii "a")) = key at hnd
  generalize hkey' : blobHash (cmdText (ascii "b")) = key' at hnd
  have hne : key ≠ key' := by
    rintro rfl
    simp [twoData] at hnd
  obtain ⟨run, hserial, hworld⟩ := two_serial hT hc hc' hkey hkey' hne
  obtain ⟨x, hx, hstuck, -⟩ := two_workers_run hT hc hc' hkey hkey' hne
  have hA := taskArray_two hc hc' T.cwd
  have hcmds : DistinctCommands (twoTasks (ascii "a") (ascii "b")) [0, 1] := distinct_two (by decide)
  have hn := names_two (ascii "a") (ascii "b")
  have hfree := (collisionFree_of_nodup hnd).mono
    (data_two (j := ⟨twoTasks (ascii "a") (ascii "b"), [0, 1], T, idleSystem⟩) rfl hdir)
  rw [← hparse] at hserial hx hstuck hA hcmds hn hfree
  refine ⟨run, _, x, hserial, hx, ?_⟩
  refine (parallel_is_serial 2 hn hcollect hplan hA hcmds hT.sound hT.cache idle_commandsWrite
    idle_deterministic hserial ?_ ?_ hx (.inl rfl)).2 hstuck
  · intro t ht
    simp only [List.mem_cons, List.not_mem_nil, or_false] at ht
    rcases ht with rfl | rfl <;> rw [EndedWell, hworld] <;> exact ⟨_, rfl, .inr rfl⟩
  · rw [hworld]
    exact hfree

/-- Two commands whose texts have one hash. -/
theorem exists_commands : ∃ c c', c ≠ c' ∧ HexWord c ∧ HexWord c' ∧
    blobHash (cmdText c) = blobHash (cmdText c') := by
  have hword : ∀ a : Fin 33 → Fin 256, HexWord (hexEncode ((List.ofFn a).map UInt8.ofFin)) := by
    intro a
    have hlen : (hexEncode ((List.ofFn a).map UInt8.ofFin)).length = 66 := by simp [hexEncode_length]
    refine ⟨?_, fun c hc => mem_hexEncode hc, by omega⟩
    intro hnil
    rw [hnil] at hlen
    cases hlen
  obtain ⟨a, b, hne, he⟩ := exists_collision card_bytes33 fun a =>
    cmdText (hexEncode ((List.ofFn a).map UInt8.ofFin))
  exact ⟨_, _, fun h => hne (bytes33_injective (hexEncode_inj h)), hword a, hword b,
    congrArg hexEncode he⟩

/-- **Without the hashes, no**: two tasks whose texts have one hash, everything else as above, and
the workers end with other statuses than the loop. -/
theorem parallel_not_serial :
    ∃ (manifest : Bytes) (fs : FS) (run : MainRun) (tr : List ParallelEvent) (x : Workers),
      ((parseManifest manifest).map Task.name).Nodup ∧
      collectNeededTasks (fun _ => false) 2 (parseManifest manifest) [] = .ok [0, 1] ∧
      plan (fun _ => false) 2 manifest [] = .ok (.sorted [0, 1]) ∧
      TaskArray (parseManifest manifest) [0, 1] fs.cwd ∧
      DistinctCommands (parseManifest manifest) [0, 1] ∧ Sound fs ∧
      fs.node (cacheDir fs.cwd) = some .dir ∧
      CommandsWrite (fun _ => idleSystem) (parseManifest manifest) [0, 1] fs.cwd ∧
      Deterministic idleSystem (parseManifest manifest) [0, 1] fs.cwd ∧
      runTasks (fun _ => idleSystem) [0, 1] ⟨parseManifest manifest, fs⟩ = .ok run ∧
      (∀ t ∈ [0, 1], EndedWell run.world t) ∧
      WorkersRun ⟨parseManifest manifest, [0, 1], workerCount 2⟩ idleSystem fs tr x ∧
      failures tr = [] ∧
      x.Stuck ⟨parseManifest manifest, [0, 1], workerCount 2⟩ idleSystem ∧
      run.world.tasks.map Task.status = [.success, .skipped] ∧
      x.world.tasks.map Task.status = [.skipped, .success] := by
  obtain ⟨c, c', hne, hc, hc', hhash⟩ := exists_commands
  have hT := workDir_noStore.emptyStore
  generalize (casInit workDir (ascii ".")).2 = T at hT
  generalize hkey : blobHash (cmdText c) = key at hhash
  obtain ⟨run, hserial, hworld⟩ := two_serial_collide hT hc hc' hkey hhash.symm
  obtain ⟨x, hx, hstuck, hworld'⟩ := two_workers_collide hT hc hc' hkey hhash.symm
  obtain ⟨hcollect, hplan⟩ := plan_two hc hc'
  have hA := taskArray_two hc hc' T.cwd
  have hcmds := distinct_two hne
  have hn := names_two c c'
  rw [← parseManifest_two hc hc'] at hserial hx hstuck hA hcmds hn
  refine ⟨twoManifest c c', T, run, _, x, hn, hcollect, hplan, hA, hcmds, hT.sound, hT.cache,
    idle_commandsWrite, idle_deterministic, hserial, ?_, hx, rfl, hstuck, ?_, ?_⟩
  · intro t ht
    simp only [List.mem_cons, List.not_mem_nil, or_false] at ht
    rcases ht with rfl | rfl <;> rw [EndedWell, hworld]
    · exact ⟨_, rfl, .inr rfl⟩
    · exact ⟨_, rfl, .inl rfl⟩
  · rw [hworld]
    rfl
  · rw [hworld']
    rfl

end ReproVM
