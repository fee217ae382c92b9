/-
# Tasks that only have a command

The smallest tasks that the loop of `main` runs: a name and a command, without inputs, outputs and
dependencies.  Their lines are read as they stand, their text is that of the command, their record
names no output, and each part of running one is known where the store is in order.  The examples
of the workers are runs of such tasks.
-/
import ReproVM.Reruns
import ReproVM.SerialParts
import ReproVM.Workers

namespace ReproVM

open Bytes (ascii)
open Lib (PostOrder Run foldlM_cons_some foldlM_append_some)
open Relation

variable {fs : FS} {name cmd key : Bytes}

/-! ## 1. The manifest -/

/-- A task that has a command only. -/
def cmdTask (name cmd : Bytes) : Task := { taskNew name with cmd := some cmd }

/-- Its lines. -/
def cmdLines (name cmd : Bytes) : List Bytes :=
  [ascii "task " ++ name ++ ascii " \x7b", ascii "cmd = " ++ cmd, [125]]

/-- Hex digits, and not too many for a line. -/
structure HexWord (s : Bytes) : Prop where
  ne_nil : s ≠ []
  hex : ∀ c ∈ s, c ∈ ascii "0123456789abcdef"
  length : s.length ≤ 4000

theorem HexWord.bytes (h : HexWord name) : ∀ c ∈ name,
    LineByte c ∧ isspace c = false ∧ isBlank c = false ∧ c ≠ 123 := by
  have hall : ∀ c ∈ ascii "0123456789abcdef",
      LineByte c ∧ isspace c = false ∧ isBlank c = false ∧ c ≠ 123 := by decide
  exact fun c hc => hall c (h.hex c hc)

theorem cmdLines_lineByte (hn : HexWord name) (hc : HexWord cmd) :
    ∀ l ∈ cmdLines name cmd, ∀ c ∈ l, LineByte c := by
  have hpre : ∀ c ∈ ascii "task " ++ ascii " \x7b" ++ ascii "cmd = " ++ [125], LineByte c := by decide
  intro l hl c hm
  simp only [cmdLines, List.mem_cons, List.not_mem_nil, or_false] at hl
  rcases hl with rfl | rfl | rfl
  · rw [List.mem_append, List.mem_append] at hm
    obtain (h | h) | h := hm
    · exact hpre c (by simp [h])
    · exact (hn.bytes c h).1
    · exact hpre c (by simp [h])
  · obtain h | h := List.mem_append.mp hm
    · exact hpre c (by simp [h])
    · exact (hc.bytes c h).1
  · exact hpre c (by simp [List.mem_singleton.mp hm])

/-- The lines are read as the task. -/
theorem foldl_cmdLines (hn : HexWord name) (hc : HexWord cmd) (st : ParseState) :
    (cmdLines name cmd).foldl parseLine st = ⟨st.tasks ++ [cmdTask name cmd], none⟩ := by
  have hblank : Blanks ([] : Bytes) := fun c hc => by cases hc
  have hhead : RendersHeader name (ascii "task " ++ name ++ ascii " \x7b") := by
    have h : RendersHeader name ([] ++ (ascii "task " ++ [] ++ name ++ [32] ++ [123]) ++ []) :=
      .mk hblank hblank (by decide) hblank
    simpa [ascii] using h
  have hfield : RendersField (.cmd cmd) (ascii "cmd = " ++ cmd) := by
    have h := RendersField.mk (f := .cmd cmd) hblank (b := [32]) (by decide)
      (.cmd (v := cmd) (a := [32]) (by decide) hblank)
    simpa [ascii, Field.key] using h
  have hclose : RendersClose [125] := .mk hblank hblank
  have hok : (Field.cmd cmd).Ok :=
    ⟨fun c h => (hc.bytes c (List.mem_of_head? h)).2.1,
      fun c h => (hc.bytes c (List.mem_of_getLast? h)).2.2.1⟩
  have hlen := hn.length
  have hlen' := hc.length
  rw [cmdLines, List.foldl_cons, List.foldl_cons, List.foldl_cons, List.foldl_nil,
    parseLine_header hhead hn.ne_nil (fun c h => ?_) (by simp [ascii]; omega),
    parseLine_field hfield hok (by simp [ascii]; omega), parseLine_close hclose (by simp)]
  · rfl
  · obtain ⟨⟨h0, -⟩, hs, -, hb⟩ := hn.bytes c h
    exact ⟨h0, hs, hb⟩

/-- The tasks of the two commands. -/
def twoTasks (c c' : Bytes) : TaskList := [cmdTask (ascii "a") c, cmdTask (ascii "b") c']

def twoManifest (c c' : Bytes) : Bytes :=
  Bytes.unpieces 10 (cmdLines (ascii "a") c ++ cmdLines (ascii "b") c')

theorem parseManifest_two {c c' : Bytes} (hc : HexWord c) (hc' : HexWord c') :
    parseManifest (twoManifest c c') = twoTasks c c' := by
  have ha : HexWord (ascii "a") := ⟨by decide, by decide, by decide⟩
  have hb : HexWord (ascii "b") := ⟨by decide, by decide, by decide⟩
  have hline : ∀ l ∈ cmdLines (ascii "a") c ++ cmdLines (ascii "b") c', ∀ x ∈ l, LineByte x := by
    intro l hl
    exact (List.mem_append.mp hl).elim (cmdLines_lineByte ha hc l) (cmdLines_lineByte hb hc' l)
  rw [parseManifest, parseTasks, twoManifest, foldl_tokens hline, List.foldl_append,
    foldl_cmdLines ha hc, foldl_cmdLines hb hc']
  rfl

/-- Both are run, in the order of the manifest. -/
theorem plan_two {c c' : Bytes} (hc : HexWord c) (hc' : HexWord c') :
    collectNeededTasks (fun _ => false) 2 (parseManifest (twoManifest c c')) [] = .ok [0, 1] ∧
      plan (fun _ => false) 2 (twoManifest c c') [] = .ok (.sorted [0, 1]) := by
  rw [plan, parseManifest_two hc hc']
  exact ⟨rfl, rfl⟩

/-! ## 2. What the rules ask of such tasks -/

/-- Tasks that read and write nothing. -/
def CommandsOnly (list : TaskList) : Prop := ∀ task ∈ list, task.inputs = [] ∧ task.outputs = []

variable {list : TaskList} {order : List TaskPtr} {cwd : Path}

theorem CommandsOnly.taskArray (h : CommandsOnly list) (hnd : order.Nodup)
    (hsorted : PostOrder (DependsOn list) order) : TaskArray list order cwd := by
  have hin : ∀ {t : TaskPtr} {task : Task}, list[t]? = some task → task.inputs = [] := fun ht =>
    (h _ (List.mem_of_getElem? ht)).1
  have hout : ∀ {t : TaskPtr} {task : Task}, list[t]? = some task → task.outputs = [] := fun ht =>
    (h _ (List.mem_of_getElem? ht)).2
  refine ⟨hnd, hsorted, ?_, ?_, ?_, ?_, ?_, ?_⟩
  · intro t _ task ht
    simp [OutsideAll, hout ht]
  · intro t _ task ht
    simp [hout ht]
  · intro t _ task ht
    simp [hout ht]
  · intro t _ u _ task task' ht _ p hp
    simp [Task.places, hout ht] at hp
  · intro t _ task ht
    simp [hin ht]
  · intro t _ u _ task task' ht _
    simp [hin ht]

theorem idle_eq (cmd : Option Bytes) (fs : FS) : (system idleSystem cmd fs).2 = fs := by
  cases cmd <;> rfl

/-- A command that does nothing follows the rules. -/
theorem idle_commandsWrite : CommandsWrite (fun _ => idleSystem) list order cwd := by
  intro t _ task _ fs _
  rw [idle_eq]
  exact ⟨.refl fs, fun _ _ => rfl⟩

theorem idle_deterministic : Deterministic idleSystem list order cwd := by
  rintro t _ task _ fs fs' rfl hsee
  rw [idle_eq, idle_eq]
  refine ⟨?_, hsee.places⟩
  cases task.cmd <;> rfl

variable {c c' : Bytes}

theorem commandsOnly_two (c c' : Bytes) : CommandsOnly (twoTasks c c') := by
  simp [CommandsOnly, twoTasks, cmdTask, taskNew]

theorem names_two (c c' : Bytes) : ((twoTasks c c').map Task.name).Nodup := by
  show [ascii "a", ascii "b"].Nodup
  decide

theorem distinct_two (hne : c ≠ c') : DistinctCommands (twoTasks c c') [0, 1] := by
  intro t ht u hu task task' htask htask' he
  simp only [List.mem_cons, List.not_mem_nil, or_false] at ht hu
  rcases ht with rfl | rfl <;> rcases hu with rfl | rfl <;> cases htask <;> cases htask'
  · rfl
  · exact absurd he hne
  · exact absurd he.symm hne
  · rfl

theorem taskArray_two (hc : HexWord c) (hc' : HexWord c') (cwd : Path) :
    TaskArray (twoTasks c c') [0, 1] cwd := by
  have hplan := (plan_two hc hc').2
  have hn := names_two c c'
  rw [← parseManifest_two hc hc'] at hn
  obtain ⟨hnd, hsorted, -⟩ := plan_sorted hplan hn
  rw [parseManifest_two hc hc'] at hsorted
  exact (commandsOnly_two c c').taskArray hnd hsorted

/-! ## 3. The parts of running one -/

/-- The text of such a task. -/
def cmdText (cmd : Bytes) : Bytes := ascii "cmd=" ++ cmd ++ ascii "\ninputs=\ndeps=\n"

/-- A worker has taken it off the queue. -/
def cmdRunning (name cmd : Bytes) : Task := { cmdTask name cmd with status := .running }

/-- It was hashed. -/
def cmdHashed (name cmd key : Bytes) : Task :=
  { cmdTask name cmd with status := .running, taskHash := some key }

/-- It ended well. -/
def cmdDone (name cmd key : Bytes) (st : TaskStatus) : Task :=
  { cmdTask name cmd with taskHash := some key, resultHash := some (blobHash []), status := st }

/-- The record of a task without outputs. -/
def cmdRecord (key : Bytes) : Bytes := recordText key ⟨blobHash [], []⟩

/-- The tree with the record. -/
def withRecord (fs : FS) (key : Bytes) : FS :=
  fs.set (recordPath fs.cwd key) (some (.file (cmdRecord key)))

theorem textAt_cmdTask (fs : FS) (name cmd : Bytes) (st : TaskStatus) :
    textAt fs { cmdTask name cmd with status := st } = cmdText cmd := by
  show taskText { cmdTask name cmd with status := st } [] = cmdText cmd
  simp [taskText, cmdTask, taskNew, cmdText, ascii]

theorem keyAt_cmdTask (hkey : blobHash (cmdText cmd) = key) (fs : FS) (name : Bytes) :
    keyAt fs (cmdTask name cmd) = key :=
  (congrArg blobHash (textAt_cmdTask fs name cmd .pending)).trans hkey

theorem resultText_cmdTask (fs : FS) (name cmd : Bytes) : resultText fs (cmdTask name cmd) = [] := rfl

theorem readRecord_cmdRecord (hk : IsHash key) : readRecord (cmdRecord key) = .ok ⟨blobHash [], []⟩ :=
  readRecord_recordText hk (isHash_blobHash []) (Nat.zero_le _) fun _ h => by cases h

theorem ensureTaskHash_cmdTask (hc : HexWord cmd) (hkey : blobHash (cmdText cmd) = key) (fs : FS)
    (name : Bytes) (st : TaskStatus) :
    ensureTaskHash fs { cmdTask name cmd with status := st } =
      .ok (true, { cmdTask name cmd with status := st, taskHash := some key }, fs) := by
  have htext := textAt_cmdTask fs name cmd st
  have hlen := hc.length
  refine (ensureTaskHash_noInputs rfl rfl ?_).trans ?_
  · rw [htext, cmdText, List.length_append, List.length_append]
    simp [ascii]
    omega
  · rw [hashedTask, keyAt, htext, hkey]

theorem hashPart_cmdTask (hc : HexWord cmd) (hkey : blobHash (cmdText cmd) = key) (fs : FS)
    (name : Bytes) : hashPart fs (cmdRunning name cmd) = .ok (true, cmdHashed name cmd key, fs) := by
  rw [hashPart, cmdRunning, ensureTaskHash_cmdTask hc hkey]
  rfl

theorem lookupPart_new (hk : IsHash key) (hmiss : fs.node (recordPath fs.cwd key) = none)
    (name cmd : Bytes) :
    lookupPart fs (cmdHashed name cmd key) = .ok (false, cmdHashed name cmd key, fs) := by
  rw [lookupPart, tryLoadTaskRecord_eq fs (cmdHashed name cmd key) rfl,
    (read_metaPath_eq_none hk fs).mpr hmiss]
  rfl

theorem lookupPart_again (hk : IsHash key) (hread : fs.read (metaPath key) = some (cmdRecord key))
    (name cmd : Bytes) :
    lookupPart fs (cmdHashed name cmd key) = .ok (true, cmdDone name cmd key .skipped, fs) := by
  rw [lookupPart, tryLoadTaskRecord_eq fs (cmdHashed name cmd key) rfl, hread]
  simp only [readRecord_cmdRecord hk]
  rfl

theorem recordPart_new (hi : StoreOk fs) (hcache : fs.node (cacheDir fs.cwd) = some .dir)
    (hk : IsHash key) (hmiss : fs.node (recordPath fs.cwd key) = none) (name cmd : Bytes) :
    recordPart fs (cmdHashed name cmd key) =
      .ok (true, cmdDone name cmd key .success, withRecord fs key) := by
  have hlen : (resultText fs (cmdTask name cmd)).length < 4096 := by simp [resultText_cmdTask]
  have hw : fs.Writable (metaPath key) := writable_metaPath hk hcache (by simp [hmiss])
  have hf := @recordPart_eq _ (cmdHashed name cmd key) hi (fun _ h => by cases h) _ hk rfl
  exact hf.trans ((if_pos hlen).trans (if_pos hw))

/-- The loop runs the task where no record is. -/
theorem mainTask_new (hi : StoreOk fs) (hcache : fs.node (cacheDir fs.cwd) = some .dir)
    (hc : HexWord cmd) (hkey : blobHash (cmdText cmd) = key)
    (hmiss : fs.node (recordPath fs.cwd key) = none) (name : Bytes) :
    mainTask idleSystem fs (cmdTask name cmd) =
      .ok ⟨true, cmdDone name cmd key .success, withRecord fs key, true⟩ := by
  have hk : IsHash key := hkey ▸ isHash_blobHash _
  have hat := keyAt_cmdTask hkey fs name
  have hens : ensureTaskHash fs (cmdTask name cmd) =
      .ok (true, hashedTask fs (cmdTask name cmd), fs) := by
    rw [hashedTask, hat]
    exact ensureTaskHash_cmdTask hc hkey fs name .pending
  have hlen : (resultText fs (cmdTask name cmd)).length < 4096 := by simp [resultText_cmdTask]
  have hres : resultAt fs (cmdTask name cmd) = blobHash [] := congrArg blobHash rfl
  have hw : fs.Writable (metaPath key) := writable_metaPath hk hcache (by simp [hmiss])
  have hnone := (read_metaPath_eq_none hk fs).mpr hmiss
  rw [← hat] at hw hnone
  have hsys : system idleSystem (cmdTask name cmd).cmd fs = (0, fs) := rfl
  rw [mainTask_success hens hnone hsys hi (fun _ h => by cases h) hlen hw, hat, hres, hashedTask, hat]
  rfl

/-- And skips it where its record is. -/
theorem mainTask_known (hc : HexWord cmd) (hkey : blobHash (cmdText cmd) = key)
    (hread : fs.read (metaPath key) = some (cmdRecord key)) (name : Bytes) :
    mainTask idleSystem fs (cmdTask name cmd) = .ok ⟨true, cmdDone name cmd key .skipped, fs, false⟩ := by
  have hk : IsHash key := hkey ▸ isHash_blobHash _
  have hat := keyAt_cmdTask hkey fs name
  have hens : ensureTaskHash fs (cmdTask name cmd) =
      .ok (true, hashedTask fs (cmdTask name cmd), fs) := by
    rw [hashedTask, hat]
    exact ensureTaskHash_cmdTask hc hkey fs name .pending
  rw [mainTask_hashed hens, executeTask_hit (hat ▸ hread) (readRecord_cmdRecord hk), hashedTask, hat]
  rfl

/-- An empty store is in order. -/
theorem EmptyStore.sound (h : EmptyStore fs) : Sound fs := by
  refine ⟨h.store, fun key content r hk hread => ?_⟩
  rw [(read_metaPath_eq_none hk fs).mpr (h.record key hk)] at hread
  cases hread

theorem withRecord_ok (hi : StoreOk fs) (hmiss : fs.node (recordPath fs.cwd key) = none) :
    StoreOk (withRecord fs key) := hi.set_record (by simp [hmiss]) _

theorem withRecord_cacheDir (hcache : fs.node (cacheDir fs.cwd) = some .dir) :
    (withRecord fs key).node (cacheDir fs.cwd) = some .dir :=
  (FS.set_node_ne _ _ (cacheDir_ne_recordPath _ _)).trans hcache

theorem withRecord_read (hk : IsHash key) (fs : FS) :
    (withRecord fs key).read (metaPath key) = some (cmdRecord key) := by
  have hn : (withRecord fs key).node (recordPath (withRecord fs key).cwd key) =
      some (.file (cmdRecord key)) := FS.set_node_self ..
  rw [read_metaPath hk, hn]

theorem withRecord_node {key' : Bytes} (hne : key' ≠ key) (fs : FS) :
    (withRecord fs key).node (recordPath fs.cwd key') = fs.node (recordPath fs.cwd key') :=
  FS.set_node_ne _ _ fun he => hne (recordPath_inj he)

/-- In a tree without files but the records. -/
theorem contents_withRecord {S : Set Bytes} (h : contents fs ⊆ S) (hS : cmdRecord key ∈ S) :
    contents (withRecord fs key) ⊆ S := by
  rintro data ⟨p, hp⟩
  by_cases hpk : p = recordPath fs.cwd key
  · rw [hpk, withRecord, FS.set_node_self] at hp
    cases hp
    exact hS
  · rw [withRecord, FS.set_node_ne _ _ hpk] at hp
    exact h ⟨p, hp⟩

/-- Two passes of the loop. -/
theorem runTasks_two {sys : System} {A B A' B' : Task} {fs₁ fs₂ : FS} {r r' : Bool}
    (h : mainTask sys fs A = .ok ⟨true, A', fs₁, r⟩) (h' : mainTask sys fs₁ B = .ok ⟨true, B', fs₂, r'⟩) :
    runTasks (fun _ => sys) [0, 1] ⟨[A, B], fs⟩ = .ok ⟨true, ⟨[A', B'], fs₂⟩,
      (if r then [0] else []) ++ ((if r' then [1] else []) ++ [])⟩ := by
  simp only [runTasks, List.getElem?_cons_zero, h, List.set, List.getElem?_cons_succ, h', if_true]

/-! ## 4. Runs of the workers -/

section Runs

variable {a : ParallelArgs} {sys : System} {tr : List ParallelEvent}

/-- The executor and the tree side by side. -/
theorem workersRun_of_foldlM {s s' : ParallelState} {w w' : World}
    (h : tr.foldlM (parallelStep a) s = some s') (hw : tr.foldlM (World.after sys) w = some w') :
    Run (WorkersStep a sys) ⟨s, w⟩ tr ⟨s', w'⟩ := by
  refine Run.of_foldlM (f := workersStep a sys) ?_
  induction tr generalizing s w with
  | nil =>
    cases h
    cases hw
    rfl
  | cons e tr ih =>
    rw [List.foldlM_cons, Option.bind_eq_bind, Option.bind_eq_some_iff] at h hw ⊢
    obtain ⟨s₁, hs, h⟩ := h
    obtain ⟨w₁, hw₁, hw⟩ := hw
    exact ⟨⟨s₁, w₁⟩, workersStep_iff.mpr ⟨hs, hw₁⟩, ih h hw⟩

/-- Nothing can happen once all workers have exited and are joined. -/
theorem WorkersRun.stuck {x : Workers} (h : WorkersRun a sys fs tr x)
    (hex : ∀ v < a.workers, x.ctx.pc v = .exited) (hmain : x.ctx.main = .join a.workers) :
    x.Stuck a sys := by
  intro e y hs
  have hctx := parallelStep_iff.mp (workersStep_iff.mp hs).1
  have hpc : ∀ v, x.ctx.pc v = .exited ∨ x.ctx.pc v = .unborn := by
    intro v
    rcases Nat.lt_or_ge v a.workers with hv | hv
    · exact .inl (hex v hv)
    · exact .inr (((lockInv_run h.ctx).unborn v).mpr (by rw [hmain]; exact hv))
  have hno : ∀ {v : Nat} {pc : Pc}, x.ctx.pc v = pc → pc ≠ .exited → pc ≠ .unborn → False := by
    intro v pc hv h1 h2
    rcases hpc v with h | h
    · exact h1 (hv.symm.trans h)
    · exact h2 (hv.symm.trans h)
  cases e with
  | spawn =>
    obtain ⟨i, -, hm, -⟩ := hctx
    simp [hmain] at hm
  | mainLock =>
    obtain ⟨hm, -⟩ := hctx
    simp [hmain] at hm
  | mainBroadcast =>
    obtain ⟨hm, -⟩ := hctx
    simp [hmain] at hm
  | join =>
    obtain ⟨i, hi, hm, -⟩ := hctx
    rw [hmain] at hm
    cases hm
    exact absurd hi (Nat.lt_irrefl _)
  | lock v =>
    obtain ⟨-, pc, hl, -⟩ := hctx
    rcases hpc v with h | h <;> rw [h] at hl <;> cases hl
  | pop v u =>
    obtain ⟨rest, -, hp, -⟩ := hctx
    exact (hno hp (by simp) (by simp)).elim
  | hash v u ok | lookup v u ok | command v u ok | record v u ok =>
    cases ok <;> exact (hno hctx.1 (by simp) (by simp)).elim
  | spurious v => exact ⟨v, rfl⟩
  | _ => exact (hno hctx.1 (by simp) (by simp)).elim

end Runs

/-! ## 5. Two tasks, two workers -/

variable {tr : List ParallelEvent} {key' : Bytes}

/-- Two workers are created, and each takes a task. -/
def bothTake : List ParallelEvent :=
  [.spawn, .spawn, .mainLock, .mainBroadcast, .lock 0, .pop 0 0, .lock 1, .pop 1 1]

/-- They complete them and exit. -/
def bothExit : List ParallelEvent :=
  [.lock 0, .done 0 0, .lock 1, .done 1 1, .lock 0, .exit 0, .lock 1, .exit 1, .join, .join]

/-- Both tasks are hashed before either is looked up. -/
def twoTrace (tr : List ParallelEvent) : List ParallelEvent :=
  bothTake ++ (.hash 0 0 true :: .hash 1 1 true :: tr ++ bothExit)

/-- The run of the two workers, where the parts in between do `tr`. -/
theorem two_workers {w : World} (hc : HexWord c) (hc' : HexWord c') (hkey : blobHash (cmdText c) = key)
    (hkey' : blobHash (cmdText c') = key')
    (hctx : ∃ s, (twoTrace tr).foldlM (parallelStep ⟨twoTasks c c', [0, 1], 2⟩)
      (parallelInit ⟨twoTasks c c', [0, 1], 2⟩) = some s ∧ s.pc 0 = .exited ∧ s.pc 1 = .exited ∧
        s.main = .join 2)
    (hw : tr.foldlM (World.after idleSystem)
      ⟨[cmdHashed (ascii "a") c key, cmdHashed (ascii "b") c' key'], fs⟩ = some w) :
    ∃ x, WorkersRun ⟨twoTasks c c', [0, 1], 2⟩ idleSystem fs (twoTrace tr) x ∧
      x.Stuck ⟨twoTasks c c', [0, 1], 2⟩ idleSystem ∧ x.world = w := by
  obtain ⟨s, hs, h0, h1, hmain⟩ := hctx
  have hhash : World.part ⟨[cmdRunning (ascii "a") c, cmdRunning (ascii "b") c'], fs⟩ 0 true
      (hashPart fs) = some ⟨[cmdHashed (ascii "a") c key, cmdRunning (ascii "b") c'], fs⟩ :=
    World.part_eq_some.mpr ⟨_, _, _, rfl, hashPart_cmdTask hc hkey fs _, rfl⟩
  have hhash' : World.part ⟨[cmdHashed (ascii "a") c key, cmdRunning (ascii "b") c'], fs⟩ 1 true
      (hashPart fs) = some ⟨[cmdHashed (ascii "a") c key, cmdHashed (ascii "b") c' key'], fs⟩ :=
    World.part_eq_some.mpr ⟨_, _, _, rfl, hashPart_cmdTask hc' hkey' fs _, rfl⟩
  have htake : bothTake.foldlM (World.after idleSystem) ⟨twoTasks c c', fs⟩ =
      some ⟨[cmdRunning (ascii "a") c, cmdRunning (ascii "b") c'], fs⟩ := rfl
  have hworld : (twoTrace tr).foldlM (World.after idleSystem) ⟨twoTasks c c', fs⟩ = some w :=
    foldlM_append_some htake
      (foldlM_cons_some hhash (foldlM_cons_some hhash' (foldlM_append_some hw rfl)))
  have hrun := workersRun_of_foldlM hs hworld
  refine ⟨⟨s, w⟩, hrun, WorkersRun.stuck hrun ?_ hmain, rfl⟩
  intro v hv
  rcases v with _ | _ | v
  · exact h0
  · exact h1
  · exact absurd hv (by simp)

/-- Equal hashes: the task that is looked up second is skipped. -/
theorem two_workers_collide (h : EmptyStore fs) (hc : HexWord c) (hc' : HexWord c')
    (hkey : blobHash (cmdText c) = key) (hkey' : blobHash (cmdText c') = key) :
    ∃ x, WorkersRun ⟨twoTasks c c', [0, 1], 2⟩ idleSystem fs
        (twoTrace [.lookup 1 1 false, .command 1 1 true, .record 1 1 true, .lookup 0 0 true]) x ∧
      x.Stuck ⟨twoTasks c c', [0, 1], 2⟩ idleSystem ∧
      x.world = ⟨[cmdDone (ascii "a") c key .skipped, cmdDone (ascii "b") c' key .success],
        withRecord fs key⟩ := by
  have hk : IsHash key := hkey ▸ isHash_blobHash _
  have hmiss := h.record key hk
  refine two_workers hc hc' hkey hkey' ⟨_, rfl, rfl, rfl, rfl⟩ ?_
  have hlook : World.part ⟨[cmdHashed (ascii "a") c key, cmdHashed (ascii "b") c' key], fs⟩ 1 false
      (lookupPart fs) = some ⟨[cmdHashed (ascii "a") c key, cmdHashed (ascii "b") c' key], fs⟩ :=
    World.part_eq_some.mpr ⟨_, _, _, rfl, lookupPart_new hk hmiss _ _, rfl⟩
  have hrec : World.part ⟨[cmdHashed (ascii "a") c key, cmdHashed (ascii "b") c' key], fs⟩ 1 true
      (recordPart fs) = some ⟨[cmdHashed (ascii "a") c key, cmdDone (ascii "b") c' key .success],
        withRecord fs key⟩ :=
    World.part_eq_some.mpr ⟨_, _, _, rfl, recordPart_new h.store h.cache hk hmiss _ _, rfl⟩
  have hagain : World.part ⟨[cmdHashed (ascii "a") c key, cmdDone (ascii "b") c' key .success],
        withRecord fs key⟩ 0 true (lookupPart (withRecord fs key)) =
      some ⟨[cmdDone (ascii "a") c key .skipped, cmdDone (ascii "b") c' key .success],
        withRecord fs key⟩ :=
    World.part_eq_some.mpr ⟨_, _, _, rfl, lookupPart_again hk (withRecord_read hk fs) _ _, rfl⟩
  exact foldlM_cons_some hlook (foldlM_cons_some rfl (foldlM_cons_some hrec (foldlM_cons_some hagain rfl)))

/-- The loop skips the second. -/
theorem two_serial_collide (h : EmptyStore fs) (hc : HexWord c) (hc' : HexWord c')
    (hkey : blobHash (cmdText c) = key) (hkey' : blobHash (cmdText c') = key) :
    ∃ run, runTasks (fun _ => idleSystem) [0, 1] ⟨twoTasks c c', fs⟩ = .ok run ∧
      run.world = ⟨[cmdDone (ascii "a") c key .success, cmdDone (ascii "b") c' key .skipped],
        withRecord fs key⟩ := by
  have hk : IsHash key := hkey ▸ isHash_blobHash _
  exact ⟨_, runTasks_two (mainTask_new h.store h.cache hc hkey (h.record key hk) _)
    (mainTask_known hc' hkey' (withRecord_read hk fs) _), rfl⟩

/-- Different hashes: both are run. -/
theorem two_workers_run (h : EmptyStore fs) (hc : HexWord c) (hc' : HexWord c')
    (hkey : blobHash (cmdText c) = key) (hkey' : blobHash (cmdText c') = key') (hne : key ≠ key') :
    ∃ x, WorkersRun ⟨twoTasks c c', [0, 1], 2⟩ idleSystem fs (twoTrace [.lookup 1 1 false,
        .lookup 0 0 false, .command 1 1 true, .command 0 0 true, .record 1 1 true, .record 0 0 true]) x ∧
      x.Stuck ⟨twoTasks c c', [0, 1], 2⟩ idleSystem ∧
      x.world = ⟨[cmdDone (ascii "a") c key .success, cmdDone (ascii "b") c' key' .success],
        withRecord (withRecord fs key') key⟩ := by
  have hk : IsHash key := hkey ▸ isHash_blobHash _
  have hk' : IsHash key' := hkey' ▸ isHash_blobHash _
  have hmiss := h.record key hk
  have hmiss' := h.record key' hk'
  refine two_workers hc hc' hkey hkey' ⟨_, rfl, rfl, rfl, rfl⟩ ?_
  have hlook' : World.part ⟨[cmdHashed (ascii "a") c key, cmdHashed (ascii "b") c' key'], fs⟩ 1 false
      (lookupPart fs) = some ⟨[cmdHashed (ascii "a") c key, cmdHashed (ascii "b") c' key'], fs⟩ :=
    World.part_eq_some.mpr ⟨_, _, _, rfl, lookupPart_new hk' hmiss' _ _, rfl⟩
  have hlook : World.part ⟨[cmdHashed (ascii "a") c key, cmdHashed (ascii "b") c' key'], fs⟩ 0 false
      (lookupPart fs) = some ⟨[cmdHashed (ascii "a") c key, cmdHashed (ascii "b") c' key'], fs⟩ :=
    World.part_eq_some.mpr ⟨_, _, _, rfl, lookupPart_new hk hmiss _ _, rfl⟩
  have hrec' : World.part ⟨[cmdHashed (ascii "a") c key, cmdHashed (ascii "b") c' key'], fs⟩ 1 true
      (recordPart fs) = some ⟨[cmdHashed (ascii "a") c key, cmdDone (ascii "b") c' key' .success],
        withRecord fs key'⟩ :=
    World.part_eq_some.mpr ⟨_, _, _, rfl, recordPart_new h.store h.cache hk' hmiss' _ _, rfl⟩
  have hrec : World.part ⟨[cmdHashed (ascii "a") c key, cmdDone (ascii "b") c' key' .success],
        withRecord fs key'⟩ 0 true (recordPart (withRecord fs key')) =
      some ⟨[cmdDone (ascii "a") c key .success, cmdDone (ascii "b") c' key' .success],
        withRecord (withRecord fs key') key⟩ :=
    World.part_eq_some.mpr ⟨_, _, _, rfl, recordPart_new (withRecord_ok h.store hmiss')
      (withRecord_cacheDir h.cache) hk ((withRecord_node hne fs).trans hmiss) _ _, rfl⟩
  exact foldlM_cons_some hlook' (foldlM_cons_some hlook (foldlM_cons_some rfl (foldlM_cons_some rfl
    (foldlM_cons_some hrec' (foldlM_cons_some hrec rfl)))))

/-- The loop runs both. -/
theorem two_serial (h : EmptyStore fs) (hc : HexWord c) (hc' : HexWord c')
    (hkey : blobHash (cmdText c) = key) (hkey' : blobHash (cmdText c') = key') (hne : key ≠ key') :
    ∃ run, runTasks (fun _ => idleSystem) [0, 1] ⟨twoTasks c c', fs⟩ = .ok run ∧
      run.world = ⟨[cmdDone (ascii "a") c key .success, cmdDone (ascii "b") c' key' .success],
        withRecord (withRecord fs key) key'⟩ := by
  have hmiss := h.record key (hkey ▸ isHash_blobHash _)
  have hmiss' := h.record key' (hkey' ▸ isHash_blobHash _)
  exact ⟨_, runTasks_two (mainTask_new h.store h.cache hc hkey hmiss _)
    (mainTask_new (withRecord_ok h.store hmiss) (withRecord_cacheDir h.cache) hc' hkey'
      ((withRecord_node hne.symm fs).trans hmiss') _), rfl⟩

/-- What the two tasks leave where no file was. -/
def twoData (c c' key key' : Bytes) : List Bytes :=
  [[], cmdText c, cmdText c', cmdRecord key, cmdRecord key']

theorem data_two {j : Job} (hj : j.list = twoTasks c c') (hfs : ∀ p n, fs.node p = some n → n = .dir) :
    j.data (withRecord (withRecord fs key) key') ⊆ {x | x ∈ twoData c c' key key'} := by
  have hnone : contents fs ⊆ {x | x ∈ twoData c c' key key'} := by
    rintro data ⟨p, hp⟩
    cases hfs p _ hp
  rintro data ((rfl | hdata) | ⟨t, -, task, htask, rfl⟩)
  · exact List.mem_cons_self
  · refine contents_withRecord (contents_withRecord hnone ?_) ?_ hdata
    · simp [twoData]
    · simp [twoData]
  · rw [hj] at htask
    have htext : ∀ name cmd, textAt (withRecord (withRecord fs key) key') (cmdTask name cmd) = cmdText cmd :=
      fun name cmd => textAt_cmdTask _ name cmd .pending
    have hm := List.mem_of_getElem? htask
    simp only [twoTasks, List.mem_cons, List.not_mem_nil, or_false] at hm
    rcases hm with rfl | rfl <;> rw [htext] <;> simp [twoData]

end ReproVM
