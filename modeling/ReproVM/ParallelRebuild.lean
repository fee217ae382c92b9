/-
# What the workers deliver

After a history of serial runs the workers of `execute_tasks_parallel` leave every output up to
date, where the loop of `main` would end well: they end with the tree that the loop leaves
(`Job.Given.same_world`), and what the loop leaves is up to date (`BuildRun.built`).
-/
import ReproVM.Rebuild
import ReproVM.WorkersEnd

namespace ReproVM

open Bytes (ascii)
open Lib (Run foldlM_cons_some foldlM_append_some)

variable {F : Command} {tr : List Event} {fs fs₁ : FS} {task : Task}

/-! ## 1. What a history leaves for a run -/

/-- Every blob that a record of the history names is in the store. -/
theorem TreeInv.sound (hi : TreeInv F tr fs) : Sound fs where
  store := hi.store.ok
  cache := by
    intro key content r hk hread hr entry he
    obtain ⟨c, -, hw, hout⟩ := hi.hit (Stores.refl fs) hk hread hr
    rw [hout] at he
    exact hw.intact entry he

theorem mainTask_ended {sys : System} {e : Exec} (h : mainTask sys fs task = .ok e)
    (hok : e.ok = true) : e.task.status = .skipped ∨ e.task.status = .success := by
  obtain ⟨task₁, fs₁, -, hit | ⟨task₂, fs₂, fs₃, -, -, hrec⟩⟩ := mainTask_parts h hok
  · exact .inl (lookupPart_status hit)
  · exact .inr (recordPart_status hrec)

/-- A loop that ends well ends every task of it well, and leaves the others alone. -/
theorem runTasks_ended {sys : TaskPtr → System} {order : List TaskPtr} {w : World} {run : MainRun}
    (hnd : order.Nodup) (h : runTasks sys order w = .ok run) (hok : run.ok = true) :
    (∀ t ∈ order, EndedWell run.world t) ∧
      ∀ t, t ∉ order → run.world.tasks[t]? = w.tasks[t]? := by
  induction order generalizing w run with
  | nil =>
    obtain rfl := Except.ok.inj h
    exact ⟨by simp, fun _ _ => rfl⟩
  | cons t order ih =>
    obtain ⟨task, task₁, fs₁, e, run', htask, hhash, hexec, heok, hrest, hok', hworld, -⟩ :=
      runTasks_pass h hok
    obtain ⟨ht, hnd⟩ := List.nodup_cons.mp hnd
    obtain ⟨hend, hkeep⟩ := ih hnd hrest hok'
    have hmain : mainTask (sys t) w.fs task = .ok e := by
      rw [mainTask, hhash]
      exact hexec
    refine ⟨fun u hu => ?_, fun u hu => ?_⟩
    · rw [hworld]
      rcases List.mem_cons.mp hu with rfl | hu
      · refine ⟨e.task, ?_, mainTask_ended hmain heok⟩
        rw [hkeep u ht, List.getElem?_set_self (List.getElem?_eq_some_iff.mp htask).1]
      · exact hend u hu
    · rw [List.mem_cons, not_or] at hu
      rw [hworld, hkeep u hu.2, List.getElem?_set_ne (Ne.symm hu.1)]

/-! ## 2. The workers -/

/-- The command depends on the input and on whether the output can be written. -/
theorem copy_deterministic : Deterministic copySystem [makeTask] [0] [ascii "w"] := by
  rintro t ht task htask fs fs' hcwd hsee
  obtain rfl := List.mem_singleton.mp ht
  obtain rfl : makeTask = task := Option.some.inj htask
  have hread : fs'.read (ascii "i") = fs.read (ascii "i") := hsee.inputs _ (List.mem_singleton_self _)
  have hplace : resolve fs.cwd (ascii "o") ∈ makeTask.places fs.cwd :=
    ⟨ascii "o", List.mem_singleton_self _, rfl⟩
  have hnode := hsee.places _ hplace
  have hw : fs'.Writable (ascii "o") ↔ fs.Writable (ascii "o") := by
    refine FS.writable_congr hsee.cwd (by rw [hnode]) (hsee.dir _ ?_)
    rw [resolve_o, List.dropLast_concat, hcwd, Inside]
    decide
  have hsys : ∀ fs : FS, system copySystem makeTask.cmd fs =
      makeSystem ((fs.read (ascii "i")).getD []) (ascii "make") fs := fun _ => rfl
  rw [hsys, hsys, hread]
  unfold makeSystem
  by_cases hwo : fs.Writable (ascii "o")
  · rw [if_pos hwo, if_pos (hw.mpr hwo)]
    refine ⟨rfl, fun p hp => ?_⟩
    obtain ⟨out, hout, rfl⟩ := hp
    obtain rfl := List.mem_singleton.mp hout
    rw [hsee.cwd, ← hcwd, FS.set_node_self, FS.set_node_self]
  · rw [if_neg hwo, if_neg (mt hw.mp hwo)]
    exact ⟨rfl, fun p hp => hsee.places p (hcwd ▸ hp)⟩

/-- Marking the task first does not change its hash. -/
theorem hashPart_running {task₁ : Task} (hnone : task.taskHash = none)
    (h : hashPart fs task = .ok (true, task₁, fs₁)) :
    hashPart fs { task with status := .running }
      = .ok (true, { task₁ with status := .running }, fs₁) := by
  unfold hashPart ensureTaskHash at h ⊢
  dsimp only
  rw [hnone] at h ⊢
  dsimp only at h ⊢
  unfold computeTaskHash at h ⊢
  rcases hrun : storeInputs fs task.inputs with ⟨_ | hs, fs'⟩ <;> rw [hrun] at h
  · cases h
  · dsimp only at h ⊢
    by_cases hlen : (taskText task hs).length < 4096
    · rw [if_pos hlen] at h
      cases h
      exact congrArg (fun x => x >>= _) (if_pos hlen)
    · rw [if_neg hlen] at h
      cases h

/-- What one worker does with the one task it is given, around its parts. -/
def oneTrace (parts : List ParallelEvent) : List ParallelEvent :=
  ([.spawn, .mainLock, .mainBroadcast, .lock 0, .pop 0 0] : List ParallelEvent) ++ (parts ++
    ([.lock 0, .done 0 0, .lock 0, .exit 0, .join] : List ParallelEvent))

/-- A part of the one task. -/
theorem World.part_single (fs : FS) {f : Task → Except Fault (Bool × Task × FS)} {task' : Task}
    {fs' : FS} {ok : Bool} (h : f task = .ok (ok, task', fs')) :
    World.part ⟨[task], fs⟩ 0 ok f = some ⟨[task'], fs'⟩ :=
  World.part_eq_some.mpr ⟨_, _, _, rfl, h, rfl⟩

/-- A pass that ends well is a run of the one worker. -/
theorem one_worker {e : Exec} {sys : System} (h : mainTask sys fs makeTask = .ok e)
    (hok : e.ok = true) : ∃ evs x, WorkersRun ⟨[makeTask], [0], 1⟩ sys fs evs x ∧
      failures evs = [] ∧ x.Stuck ⟨[makeTask], [0], 1⟩ sys := by
  obtain ⟨task₁, fs₁, hhash, hrest⟩ := mainTask_parts h hok
  have hhash' := World.part_single fs (hashPart_running rfl hhash)
  have hparts : ∃ parts w, failures (oneTrace parts) = [] ∧
      ((oneTrace parts).foldlM (parallelStep ⟨[makeTask], [0], 1⟩)
        (parallelInit ⟨[makeTask], [0], 1⟩)).map (fun s => (s.pc 0, s.main))
          = some (.exited, .join 1) ∧
      parts.foldlM (World.after sys) ⟨[{ makeTask with status := .running }], fs⟩ = some w := by
    rcases hrest with hit | ⟨task₂, fs₂, fs₃, hmiss, hcmd, hrec⟩
    · have hlook := World.part_single fs₁ hit
      refine ⟨[.hash 0 0 true, .lookup 0 0 true], ⟨[e.task], e.fs⟩, rfl, by decide +kernel, ?_⟩
      exact foldlM_cons_some hhash' (foldlM_cons_some hlook rfl)
    · have hlook := World.part_single fs₁ hmiss
      have hcommand : World.part ⟨[task₂], fs₂⟩ 0 true (fun task => .ok (commandPart sys fs₂ task))
          = some ⟨[task₂], fs₃⟩ := World.part_single fs₂ (congrArg _ hcmd)
      have hrecord := World.part_single fs₃ hrec
      refine ⟨[.hash 0 0 true, .lookup 0 0 false, .command 0 0 true, .record 0 0 true],
        ⟨[e.task], e.fs⟩, rfl, by decide +kernel, ?_⟩
      exact foldlM_cons_some hhash' (foldlM_cons_some hlook (foldlM_cons_some hcommand
        (foldlM_cons_some hrecord rfl)))
  obtain ⟨parts, w, hfail, hend, hw⟩ := hparts
  obtain ⟨s, hs, hsp⟩ := Option.map_eq_some_iff.mp hend
  obtain ⟨hpc, hmain⟩ := Prod.mk.inj hsp
  have hworld : (oneTrace parts).foldlM (World.after sys) ⟨[makeTask], fs⟩ = some w :=
    foldlM_append_some rfl (foldlM_append_some hw rfl)
  have hrun : WorkersRun ⟨[makeTask], [0], 1⟩ sys fs (oneTrace parts) ⟨s, w⟩ :=
    workersRun_of_foldlM hs hworld
  refine ⟨_, _, hrun, hfail, hrun.stuck (fun v hv => ?_) hmain⟩
  obtain rfl : v = 0 := Nat.lt_one_iff.mp hv
  exact hpc

/-- What is left is told apart by its hash. -/
theorem copy_left_collisionFree {fs : FS}
    (hsub : contents fs ⊆ {ascii "x", makeRecordText (ascii "x")})
    (htext : textAt fs makeTask = copyText) (fs₀ : FS) (sys : System) :
    CollisionFree (Job.data ⟨[makeTask], [0], fs₀, sys⟩ fs) := by
  have h : ([[], ascii "x", makeRecordText (ascii "x"), copyText].map sha256).Nodup :=
    makeTexts_nodup
  have hmem : ∀ d ∈ Job.data ⟨[makeTask], [0], fs₀, sys⟩ fs,
      d ∈ [[], ascii "x", makeRecordText (ascii "x"), copyText] := by
    rintro d ((rfl | hd) | ⟨t, ht, task, htask, rfl⟩)
    · simp
    · rcases hsub hd with rfl | rfl <;> simp
    · obtain rfl := List.mem_singleton.mp ht
      obtain rfl : makeTask = task := Option.some.inj htask
      simp [htext]
  exact fun d hd d' hd' => List.inj_on_of_nodup_map h (hmem d hd) (hmem d' hd')

theorem collect_make :
    collectNeededTasks (fun _ => false) 2 (parseManifest makeManifest) [] = .ok [0] := by
  rw [parseManifest_make]
  decide +kernel

end ReproVM
