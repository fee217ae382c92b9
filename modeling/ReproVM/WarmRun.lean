/-
# A second run does nothing

A run of `main` in which every task was skipped or succeeded, then the loop once more with
nothing edited.  After its pass a task is `Settled`: its inputs are in the store, the record of
its key is there and gives its result hash, and what a restore would write is there already, up to
its hash.  The passes of other tasks keep this, because they write at other places, and a pass
over a settled task skips it and changes nothing.

What is restored is the content that the store holds for a hash.  It is the content that is there
when no two files have different contents with one hash, and the second run needs this.
-/
import ReproVM.Main
import ReproVM.Collect
import Mathlib.Data.Fintype.BigOperators
import Mathlib.Data.Fintype.Pigeonhole

namespace ReproVM

open Bytes (ascii)
open Lib (PostOrder)
open Relation

variable {fs fs' : FS} {task : Task}

/-! ## 1. The array -/

/-- What is asked of a sorted array of tasks. -/
structure TaskArray (list : TaskList) (order : List TaskPtr) (cwd : Path) : Prop where
  nodup : order.Nodup
  sorted : PostOrder (DependsOn list) order
  outside : ∀ t ∈ order, ∀ task, list[t]? = some task → OutsideAll cwd task.outputs
  noSpace : ∀ t ∈ order, ∀ task, list[t]? = some task → ∀ out ∈ task.outputs, 32 ∉ out
  few : ∀ t ∈ order, ∀ task, list[t]? = some task → task.outputs.length ≤ 64
  /-- a place is an output of one task at most -/
  unique : ∀ t ∈ order, ∀ u ∈ order, ∀ task task', list[t]? = some task → list[u]? = some task' →
    ∀ p ∈ task.places cwd, p ∈ task'.places cwd → t = u
  /-- no task reads its own output -/
  own : ∀ t ∈ order, ∀ task, list[t]? = some task →
    ∀ s ∈ task.inputs, resolve cwd s ∉ task.places cwd
  /-- who reads an output depends on the task that writes it -/
  producer : ∀ t ∈ order, ∀ u ∈ order, ∀ task task', list[t]? = some task →
    list[u]? = some task' → ∀ s ∈ task.inputs, resolve cwd s ∈ task'.places cwd → t ≠ u →
      TransGen (DependsOn list) t u

/-- The commands write only the declared outputs. -/
def CommandsWrite (sys : TaskPtr → System) (list : TaskList) (order : List TaskPtr) (cwd : Path) :
    Prop :=
  ∀ t ∈ order, ∀ task, list[t]? = some task → ∀ fs : FS, fs.cwd = cwd →
    WritesOutputs task fs (system (sys t) task.cmd fs).2

/-! ## 2. Settled tasks -/

/-- The task ended well, and a pass over it would change nothing, up to hashes. -/
structure Settled (fs : FS) (task : Task) (r : Record) : Prop where
  inputs : ∀ s ∈ task.inputs, Hashed fs s
  length : (textAt fs task).length < 4096
  key : task.taskHash = some (keyAt fs task)
  result : task.resultHash = some r.resultHash
  record : ∃ content, fs.read (metaPath (keyAt fs task)) = some content ∧ readRecord content = .ok r
  intact : ∀ entry ∈ r.outputs, Intact fs entry.2
  restored : ∀ p x, lastWrite p (restoreWrites fs task.outputs r.outputs) = some x →
    ∃ d, fs.node p = some (.file d) ∧ blobHash d = blobHash x

/-- What is restored does not depend on what was added. -/
theorem Grows.restoreWrites_eq {ps : Set Path} (h : Grows ps fs fs') {outputs : List Bytes}
    (ho : OutsideAll fs.cwd outputs) {entries : List (Bytes × Bytes)}
    (hintact : ∀ entry ∈ entries, Intact fs entry.2) :
    restoreWrites fs' outputs entries = restoreWrites fs outputs entries := by
  refine List.flatMap_congr fun entry he => ?_
  rw [h.cwd, h.blobAt_eq (hintact entry he)]
  congr 1
  refine List.filter_congr fun out hout => ?_
  simp only [h.writable_iff (ho out hout)]

/-- **Other tasks keep it.** -/
theorem Settled.grows {ps : Set Path} {r : Record} (h : Settled fs task r) (hg : Grows ps fs fs')
    (ho : OutsideAll fs.cwd task.outputs) (hin : ∀ s ∈ task.inputs, resolve fs.cwd s ∉ ps)
    (hout : ∀ p ∈ task.places fs.cwd, p ∉ ps) : Settled fs' task r := by
  have htext : textAt fs' task = textAt fs task :=
    textAt_congr rfl fun s hs => (hg.hashed (hin s hs) (h.inputs s hs)).2
  have hkey : keyAt fs' task = keyAt fs task := by rw [keyAt, keyAt, htext]
  obtain ⟨content, hread, hr⟩ := h.record
  refine ⟨fun s hs => (hg.hashed (hin s hs) (h.inputs s hs)).1, by rw [htext]; exact h.length,
    by rw [hkey]; exact h.key, h.result, ⟨content, ?_, hr⟩,
    fun entry he => hg.intact (h.intact entry he), fun p x hx => ?_⟩
  · rw [hkey]
    exact hg.read_record (isHash_keyAt fs task) hread
  · rw [hg.restoreWrites_eq ho h.intact] at hx
    obtain ⟨entry, -, hmem, -, he⟩ := mem_restoreWrites.mp (lastWrite_mem hx)
    obtain ⟨d, hd, hhash⟩ := h.restored p x hx
    refine ⟨d, ?_, hhash⟩
    rw [hg.node_eq (hout p ⟨entry.1, hmem, (Prod.mk.inj he).1.symm⟩) (by simp [hd]), hd]

/-- What a pass needs to know about its task. -/
structure TaskOk (cwd : Path) (task : Task) : Prop where
  outside : OutsideAll cwd task.outputs
  plain : ∀ out ∈ task.outputs, PlainName out
  few : task.outputs.length ≤ 64
  own : ∀ s ∈ task.inputs, resolve cwd s ∉ task.places cwd

/-- The state between two passes. -/
structure Sound (fs : FS) : Prop where
  store : StoreOk fs
  cache : CacheIntact fs

/-- The inputs after the outputs were written. -/
theorem HashedIn.later {fs₁ : FS} (hh : HashedIn fs task fs₁) (ht : TaskOk fs₁.cwd task)
    (hg : Grows (task.places fs₁.cwd) fs₁ fs') :
    (∀ s ∈ task.inputs, Hashed fs' s) ∧ textAt fs' task = textAt fs₁ task :=
  ⟨fun s hs => (hg.hashed (ht.own s hs) (hh.inputs s hs)).1,
    textAt_congr rfl fun s hs => (hg.hashed (ht.own s hs) (hh.inputs s hs)).2⟩

/-- A task that was skipped is settled. -/
theorem settled_skipped {fs₁ : FS} (hh : HashedIn fs task fs₁) (ht : TaskOk fs₁.cwd task)
    {content : Bytes} {r : Record} (hread : fs₁.read (metaPath (keyAt fs₁ task)) = some content)
    (hr : readRecord content = .ok r) (hintact : ∀ entry ∈ r.outputs, Intact fs₁ entry.2) :
    Settled (fs₁.setFiles (restoreWrites fs₁ task.outputs r.outputs))
      { hashedTask fs₁ task with resultHash := some r.resultHash, status := .skipped } r := by
  have hw := writesOutputs_restoreWrites ht.outside r.outputs
  have hg := hw.grows
  obtain ⟨hin, htext⟩ := hh.later ht hg
  have hkey := congrArg blobHash htext
  refine ⟨hin, ?_, congrArg some hkey.symm, rfl, ⟨content, ?_, hr⟩,
    fun entry he => hg.intact (hintact entry he), fun p x hx => ?_⟩
  · exact htext ▸ hh.length
  · exact (congrArg _ (congrArg metaPath hkey)).trans (hg.read_record (isHash_keyAt fs₁ task) hread)
  · have hsame := hg.restoreWrites_eq ht.outside hintact
    have hx₁ := (congrArg (lastWrite p) hsame).symm.trans hx
    exact ⟨x, by rw [FS.setFiles_node, hx₁]; rfl, rfl⟩

/-- The tree that the command leaves can take the record. -/
theorem WritesOutputs.unrecorded {fs₁ fs₂ : FS} (hw : WritesOutputs task fs₁ fs₂) (hi : StoreOk fs₁)
    (ho : OutsideAll fs₁.cwd task.outputs) {key : Bytes}
    (hmiss : fs₁.node (recordPath fs₁.cwd key) = none) :
    StoreOk fs₂ ∧ OutsideAll fs₂.cwd task.outputs ∧ fs₂.node (recordPath fs₂.cwd key) = none := by
  refine ⟨hw.storeInv hi, by rwa [hw.cwd], ?_⟩
  rw [hw.cwd, hw.record, hmiss]

/-- A task that succeeded is settled. -/
theorem settled_success {fs₁ fs₂ : FS} (hh : HashedIn fs task fs₁) (ht : TaskOk fs₁.cwd task)
    (hw : WritesOutputs task fs₁ fs₂)
    (hmiss : fs₁.node (recordPath fs₁.cwd (keyAt fs₁ task)) = none) :
    Settled (recorded fs₂ task (keyAt fs₁ task))
      { hashedTask fs₁ task with resultHash := some (resultAt fs₂ task), status := .success }
      (recordOf fs₂ task) := by
  have hk := isHash_keyAt fs₁ task
  obtain ⟨hi₂, ho₂, hmiss₂⟩ := hw.unrecorded hh.ok ht.outside hmiss
  have hrec := recorded_grows hi₂ ho₂ hmiss₂ (task.places fs₂.cwd)
  have hi₃ : StoreOk (recorded fs₂ task (keyAt fs₁ task)) :=
    recorded_storeInv hi₂ ho₂ hmiss₂ hi₂ fun _ _ _ _ => Set.mem_univ _
  have hg : Grows (task.places fs₁.cwd) fs₁ (recorded fs₂ task (keyAt fs₁ task)) := by
    rw [hw.cwd] at hrec
    exact hw.grows.trans hrec
  have hintact : ∀ entry ∈ (recordOf fs₂ task).outputs,
      Intact (recorded fs₂ task (keyAt fs₁ task)) entry.2 := fun entry he => by
    obtain ⟨h1, -, h3, -⟩ := outputsStored_stores hi₂ ho₂
    have hset := grows_record (node_outputsStored hi₂ ho₂ hmiss₂)
      (recordText (keyAt fs₁ task) (recordOf fs₂ task)) ∅
    rw [h1.cwd] at hset
    exact hset.intact (h3 entry he)
  obtain ⟨hin, htext⟩ := hh.later ht hg
  have hkey := congrArg blobHash htext
  refine ⟨hin, htext ▸ hh.length, congrArg some hkey.symm, rfl,
    ⟨_, (congrArg _ (congrArg metaPath hkey)).trans (read_recorded hi₂ ho₂ hk),
      readRecord_recordOf ht.plain ht.few hk fs₂⟩, hintact, fun p x hx => ?_⟩
  -- what is restored has the hash of what the command wrote
  obtain ⟨entry, he, hmem, hwr, hpx⟩ := mem_restoreWrites.mp (lastWrite_mem hx)
  obtain ⟨rfl, rfl⟩ := Prod.mk.inj hpx
  obtain ⟨out, hout, hsome⟩ := List.mem_filterMap.mp he
  obtain ⟨data, hread, rfl⟩ := Option.map_eq_some_iff.mp hsome
  rw [hrec.writable_iff (ho₂ out hout)] at hwr
  have hnode := FS.node_of_read hwr hread
  refine ⟨data, ?_, (blobHash_blobAt hi₃ (hintact _ he)).symm⟩
  rw [hrec.cwd, recorded_grows hi₂ ho₂ hmiss₂ ∅ |>.node_eq (by simp) (by simp [hnode]), hnode]

/-- **A pass that ends well** touches only the places of the outputs, outside, and leaves its task
settled. -/
theorem MainCall.settled {sys : System} {e : Exec} (h : MainCall sys fs task e) (hs : Sound fs)
    (ht : TaskOk fs.cwd task)
    (hsys : ∀ fs', fs'.cwd = fs.cwd → WritesOutputs task fs' (system sys task.cmd fs').2)
    (hok : e.ok = true) :
    Grows (task.places fs.cwd) fs e.fs ∧ Sound e.fs ∧ e.task.decl = task.decl ∧
      (e.task.status = .skipped ∨ e.task.status = .success) ∧ ∃ r, Settled e.fs e.task r := by
  cases h with
  | @skipped fs₁ hh content r hread hr =>
    have hcwd := hh.stores.cwd
    have ht₁ : TaskOk fs₁.cwd task := by rwa [hcwd]
    have hintact := hs.cache.stores hh.stores _ content r (isHash_keyAt _ _) hread hr
    have he : restoreAll fs₁ task.outputs r.outputs
        = fs₁.setFiles (restoreWrites fs₁ task.outputs r.outputs) :=
      restoreOutputs_eq hh.ok ht₁.outside hintact
    have hw := writesOutputs_restoreWrites ht₁.outside r.outputs
    have hg := hw.grows
    rw [hcwd] at hg
    rw [he]
    exact ⟨(hh.stores.grows _).trans hg, ⟨hw.storeInv hh.ok, hw.cacheIntact
      (hs.cache.stores hh.stores)⟩, rfl, .inl rfl, r, settled_skipped hh ht₁ hread hr hintact⟩
  | @success fs₁ fs₂ hh hmiss hrun hlen =>
    have hcwd := hh.stores.cwd
    have ht₁ : TaskOk fs₁.cwd task := by rwa [hcwd]
    have hw := hsys fs₁ hcwd
    rw [hrun] at hw
    obtain ⟨hi₂, ho₂, hmiss₂⟩ := hw.unrecorded hh.ok ht₁.outside hmiss
    have hg := hw.grows.trans (recorded_grows hi₂ ho₂ hmiss₂ _)
    rw [hcwd] at hg
    exact ⟨(hh.stores.grows _).trans hg,
      ⟨recorded_storeInv hi₂ ho₂ hmiss₂ hi₂ fun _ _ _ _ => Set.mem_univ _,
        recorded_cacheIntact hi₂ ho₂ hmiss₂ ht.plain ht.few (isHash_keyAt ..)
          (hw.cacheIntact (hs.cache.stores hh.stores))⟩,
      rfl, .inr rfl, _, settled_success hh ht₁ hw hmiss⟩
  | _ => cases hok

/-- A pass that does not end well says so in the status. -/
theorem MainCall.failed {sys : System} {e : Exec} (h : MainCall sys fs task e)
    (hok : e.ok = false) : e.task.status = .failed := by
  cases h <;> first | rfl | cases hok

/-! ## 4. The first run -/

section Runs

variable {list : TaskList} {order done : List TaskPtr} {cwd : Path} {w : World} {t : TaskPtr}

/-- The task ended well. -/
def EndedWell (w : World) (t : TaskPtr) : Prop :=
  ∃ task, w.tasks[t]? = some task ∧ (task.status = .skipped ∨ task.status = .success)

/-- Between two passes: the tasks done are settled, and the others are as they were parsed. -/
structure WarmInv (list : TaskList) (cwd : Path) (done : List TaskPtr) (w : World) : Prop where
  cwd : w.fs.cwd = cwd
  sound : Sound w.fs
  fresh : ∀ t, t ∉ done → w.tasks[t]? = list[t]?
  settled : ∀ t ∈ done, ∃ task task' r, list[t]? = some task ∧ w.tasks[t]? = some task' ∧
    task'.decl = task.decl ∧ (task'.status = .skipped ∨ task'.status = .success) ∧
      Settled w.fs task' r

theorem TaskArray.taskOk (hA : TaskArray list order cwd) (hf : ∀ task ∈ list, FreshTask task)
    (ht : t ∈ order) (htask : list[t]? = some task) : TaskOk cwd task where
  outside := hA.outside t ht task htask
  plain out hout := by
    obtain ⟨hne, -, hline⟩ := (hf task (List.mem_of_getElem? htask)).outputs out hout
    exact ⟨hne, fun h => (hline _ h).1 rfl, fun h => (hline _ h).2 rfl,
      hA.noSpace t ht task htask out hout⟩
  few := hA.few t ht task htask
  own := hA.own t ht task htask

theorem TaskArray.notMem_done (hA : TaskArray list (done ++ t :: order) cwd) : t ∉ done := fun h =>
  (List.nodup_append.mp hA.nodup).2.2 t h t List.mem_cons_self rfl

/-- A task reads no output of one that comes later. -/
theorem TaskArray.not_reads_later (hA : TaskArray list (done ++ t :: order) cwd) {u : TaskPtr}
    (hu : u ∈ done) {task' : Task} (htask : list[t]? = some task) (htask' : list[u]? = some task') :
    ∀ s ∈ task'.inputs, resolve cwd s ∉ task.places cwd := by
  intro s hs hp
  have ht := hA.notMem_done
  have hne : u ≠ t := fun h => ht (h ▸ hu)
  have hreach := hA.producer u (by simp [hu]) t (by simp) task' task htask' htask s hs hp hne
  exact ht (hA.sorted.left.reach_mem hu hreach.to_reflTransGen)

/-- **One pass.** -/
theorem WarmInv.step (hA : TaskArray list (done ++ t :: order) cwd)
    (hf : ∀ task ∈ list, FreshTask task) (hi : WarmInv list cwd done w)
    (htask : list[t]? = some task) {sys : System} {e : Exec} (h : MainCall sys w.fs task e)
    (hsys : ∀ fs' : FS, fs'.cwd = cwd → WritesOutputs task fs' (system sys task.cmd fs').2)
    (hok : e.ok = true) : WarmInv list cwd (done ++ [t]) ⟨w.tasks.set t e.task, e.fs⟩ := by
  have hmem : t ∈ done ++ t :: order := by simp
  have ht := hA.notMem_done
  have hTask : TaskOk w.fs.cwd task := by
    rw [hi.cwd]
    exact hA.taskOk hf hmem htask
  obtain ⟨hg, hsound, hdecl, hstatus, r, hset⟩ := h.settled hi.sound hTask (by rwa [hi.cwd]) hok
  refine ⟨hg.cwd.trans hi.cwd, hsound, fun u hu => ?_, fun u hu => ?_⟩
  · rw [List.mem_append, List.mem_singleton, not_or] at hu
    rw [List.getElem?_set_ne (Ne.symm hu.2), hi.fresh u hu.1]
  · rcases List.mem_append.mp hu with hu | hu
    · have hne : t ≠ u := fun h => ht (h ▸ hu)
      obtain ⟨v, v', rv, hv, hv', hvd, hvs, hvset⟩ := hi.settled u hu
      refine ⟨v, v', rv, hv, by rw [List.getElem?_set_ne hne, hv'], hvd, hvs, ?_⟩
      obtain ⟨-, -, hinputs, houtputs, -⟩ := Task.decl_eq_iff.mp hvd
      refine hvset.grows hg ?_ ?_ ?_
      · rw [houtputs, hi.cwd]
        exact hA.outside u (by simp [hu]) v hv
      · rw [hinputs, hi.cwd]
        exact hA.not_reads_later hu htask hv
      · rintro p ⟨out, hout, rfl⟩ hp
        rw [houtputs] at hout
        rw [hi.cwd] at hp
        exact hne (hA.unique t hmem u (by simp [hu]) task v htask hv _ hp ⟨out, hout, rfl⟩)
    · obtain rfl := List.mem_singleton.mp hu
      have hlt : u < w.tasks.length := by
        have := hi.fresh u ht
        rw [htask] at this
        exact (List.getElem?_eq_some_iff.mp this).1
      exact ⟨task, e.task, r, htask, List.getElem?_set_self hlt, hdecl, hstatus, hset⟩

/-- The loop makes a pass over the next task and goes on, unless the task failed. -/
theorem runTasks_cons {sys : TaskPtr → System} {run : MainRun}
    (h : runTasks sys (t :: order) w = .ok run) :
    ∃ task e, w.tasks[t]? = some task ∧ mainTask (sys t) w.fs task = .ok e ∧
      (e.ok = false ∧ run.world = ⟨w.tasks.set t e.task, e.fs⟩ ∨
        e.ok = true ∧ ∃ r, runTasks sys order ⟨w.tasks.set t e.task, e.fs⟩ = .ok r ∧
          run.world = r.world) := by
  rw [runTasks] at h
  cases hget : w.tasks[t]? with
  | none => simp [hget] at h
  | some task =>
    simp only [hget] at h
    cases he : mainTask (sys t) w.fs task with
    | error e => simp [he] at h
    | ok e =>
      refine ⟨task, e, rfl, he, ?_⟩
      simp only [he] at h
      cases hok : e.ok with
      | false =>
        simp only [hok, Bool.false_eq_true, if_false] at h
        exact .inl ⟨rfl, (Except.ok.inj h).symm ▸ rfl⟩
      | true =>
        simp only [hok, if_true] at h
        cases hrest : runTasks sys order ⟨w.tasks.set t e.task, e.fs⟩ with
        | error e => simp [hrest] at h
        | ok r =>
          simp only [hrest] at h
          exact .inr ⟨rfl, r, rfl, (Except.ok.inj h).symm ▸ rfl⟩

/-- **The run** leaves every task settled. -/
theorem runTasks_settled {sys : TaskPtr → System} {run : MainRun}
    (hA : TaskArray list (done ++ order) cwd) (hf : ∀ task ∈ list, FreshTask task)
    (hsys : CommandsWrite sys list (done ++ order) cwd) (hi : WarmInv list cwd done w)
    (h : runTasks sys order w = .ok run) (hwell : ∀ t ∈ order, EndedWell run.world t) :
    WarmInv list cwd (done ++ order) run.world := by
  induction order generalizing done w run with
  | nil =>
    obtain rfl := Except.ok.inj h
    rwa [List.append_nil]
  | cons t order ih =>
    have hmem : t ∈ done ++ t :: order := by simp
    have ht := hA.notMem_done
    obtain ⟨task, e, hget, he, hend⟩ := runTasks_cons h
    have htask : list[t]? = some task := by rw [← hi.fresh t ht, hget]
    have hw : ∀ fs' : FS, fs'.cwd = cwd → WritesOutputs task fs' (system (sys t) task.cmd fs').2 :=
      hsys t hmem task htask
    have hcall : MainCall (sys t) w.fs task e := by
      refine mainTask_cases hi.sound.store ?_ ?_ (by rwa [hi.cwd]) he
      · exact (hf task (List.mem_of_getElem? htask)).taskHash
      · rw [hi.cwd]
        exact hA.outside t hmem task htask
    rcases hend with ⟨hok, hrun⟩ | ⟨hok, r, hrest, hrun⟩
    · -- the loop ended here, with a failed task
      obtain ⟨task', htask', hst⟩ := hwell t List.mem_cons_self
      rw [hrun, List.getElem?_set_self (List.getElem?_eq_some_iff.mp hget).1] at htask'
      obtain rfl := Option.some.inj htask'
      rw [hcall.failed hok] at hst
      simp at hst
    · have hstep := hi.step hA hf htask hcall hw hok
      have happ : done ++ t :: order = (done ++ [t]) ++ order := by simp
      rw [hrun] at hwell ⊢
      rw [happ] at hA hsys ⊢
      exact ih hA hsys hstep hrest fun u hu => hwell u (List.mem_cons_of_mem _ hu)

/-! ## 5. The second run -/

/-- The contents of all files. -/
def contents (fs : FS) : Set Bytes := {data | ∃ p, fs.node p = some (.file data)}

/-- A pass over a settled task skips it and restores what its record names. -/
theorem mainTask_again (sys : System) {task' : Task} {r : Record} (hi : StoreOk fs)
    (hset : Settled fs task' r) (hdecl : task'.decl = task.decl) (hnone : task.taskHash = none)
    (ho : OutsideAll fs.cwd task.outputs) :
    mainTask sys fs task = .ok ⟨true, { task with
        taskHash := task'.taskHash, resultHash := task'.resultHash, status := .skipped },
      fs.setFiles (restoreWrites fs task.outputs r.outputs), false⟩ := by
  obtain ⟨-, -, hinputs, -, -⟩ := Task.decl_eq_iff.mp hdecl
  have htext : textAt fs task' = textAt fs task := textAt_congr hdecl fun _ _ => rfl
  have hkey : keyAt fs task' = keyAt fs task := congrArg blobHash htext
  obtain ⟨content, hread, hr⟩ := hset.record
  rw [hkey] at hread
  have hhash := ensureTaskHash_hashed hi hnone (hinputs ▸ hset.inputs) (htext ▸ hset.length)
  have hrestore : restoreAll fs task.outputs r.outputs
      = fs.setFiles (restoreWrites fs task.outputs r.outputs) :=
    restoreOutputs_eq hi ho hset.intact
  rw [mainTask_hashed hhash, executeTask_hit hread hr, hrestore, hset.key, hset.result, hkey]
  rfl

/-- **A pass over a settled task** changes nothing. -/
theorem mainTask_settled (sys : System) {task' : Task} {r : Record} (hs : Sound fs)
    (hcf : CollisionFree (contents fs)) (hset : Settled fs task' r) (hdecl : task'.decl = task.decl)
    (hnone : task.taskHash = none) (ho : OutsideAll fs.cwd task.outputs) :
    mainTask sys fs task = .ok ⟨true, { task with
      taskHash := task'.taskHash, resultHash := task'.resultHash, status := .skipped }, fs, false⟩ := by
  obtain ⟨-, -, -, houtputs, -⟩ := Task.decl_eq_iff.mp hdecl
  have hsame : fs.setFiles (restoreWrites fs task.outputs r.outputs) = fs := by
    refine FS.setFiles_same fun p x hx => ?_
    obtain ⟨entry, he, -, -, hpx⟩ := mem_restoreWrites.mp (lastWrite_mem hx)
    obtain ⟨-, data, hobj⟩ := hset.intact entry he
    have hxd : x = data := by rw [(Prod.mk.inj hpx).2, blobAt, hobj]
    rw [← houtputs] at hx
    obtain ⟨d, hd, hhash⟩ := hset.restored p x hx
    rw [hd, blobHash_inj hcf ⟨p, hd⟩ ⟨_, hxd ▸ hobj⟩ hhash]
  rw [mainTask_again sys hs.store hset hdecl hnone ho, hsame]

/-- **The loop over settled tasks** skips them all. -/
theorem runTasks_again (list tasks' : TaskList) (hs : Sound fs) (hcf : CollisionFree (contents fs))
    (hnd : order.Nodup)
    (hset : ∀ t ∈ order, ∃ task task' r, list[t]? = some task ∧ tasks'[t]? = some task' ∧
      task'.decl = task.decl ∧ task.taskHash = none ∧ OutsideAll fs.cwd task.outputs ∧
        Settled fs task' r)
    (sys : TaskPtr → System) :
    ∃ tasks, runTasks sys order ⟨list, fs⟩ = .ok ⟨true, ⟨tasks, fs⟩, []⟩ ∧
      (∀ t, t ∉ order → tasks[t]? = list[t]?) ∧
      ∀ t ∈ order, ∃ task task', tasks[t]? = some task ∧ tasks'[t]? = some task' ∧
        task.status = .skipped ∧ task.taskHash = task'.taskHash ∧
          task.resultHash = task'.resultHash := by
  induction order generalizing list with
  | nil => exact ⟨list, rfl, fun _ _ => rfl, by simp⟩
  | cons t order ih =>
    obtain ⟨htorder, hnd'⟩ := List.nodup_cons.mp hnd
    obtain ⟨task, task', r, htask, htask', hdecl, hnone, ho, hsettled⟩ := hset t List.mem_cons_self
    have he := mainTask_settled (sys t) hs hcf hsettled hdecl hnone ho
    obtain ⟨tasks, hrun, hother, hall⟩ := ih (list.set t { task with
        taskHash := task'.taskHash, resultHash := task'.resultHash, status := .skipped }) hnd'
      fun u hu => by
        have hne : t ≠ u := fun h => htorder (h ▸ hu)
        rw [List.getElem?_set_ne hne]
        exact hset u (List.mem_cons_of_mem _ hu)
    refine ⟨tasks, ?_, fun u hu => ?_, fun u hu => ?_⟩
    · rw [runTasks]
      simp only [htask, he, hrun, if_true]
      rfl
    · rw [List.mem_cons, not_or] at hu
      rw [hother u hu.2, List.getElem?_set_ne (Ne.symm hu.1)]
    · rcases List.mem_cons.mp hu with rfl | hu
      · have hget := hother u htorder
        rw [List.getElem?_set_self (List.getElem?_eq_some_iff.mp htask).1] at hget
        exact ⟨_, task', hget, htask', rfl, rfl, rfl⟩
      · exact hall u hu

end Runs

/-- **Warm runs.**  After a run of the loop in which every task was skipped or succeeded, and
which left no two files of different contents with one hash, a second run with nothing edited
ends, runs no command, skips every task with the same hash and result hash, and leaves the whole
tree as it is. -/
theorem warm_run {manifest : Bytes} {order : List TaskPtr} {fs₀ : FS} {sys₁ : TaskPtr → System}
    {run₁ : MainRun} (hA : TaskArray (parseManifest manifest) order fs₀.cwd)
    (hstore : StoreOk fs₀) (hcache : CacheIntact fs₀)
    (hsys : CommandsWrite sys₁ (parseManifest manifest) order fs₀.cwd)
    (h : runTasks sys₁ order ⟨parseManifest manifest, fs₀⟩ = .ok run₁)
    (hwell : ∀ t ∈ order, EndedWell run₁.world t)
    (hcf : CollisionFree (contents run₁.world.fs)) (sys₂ : TaskPtr → System) :
    ∃ run₂, runTasks sys₂ order ⟨parseManifest manifest, run₁.world.fs⟩ = .ok run₂ ∧
      run₂.ok = true ∧ run₂.ran = [] ∧ run₂.world.fs = run₁.world.fs ∧
      ∀ t ∈ order, ∃ task task', run₂.world.tasks[t]? = some task ∧
        run₁.world.tasks[t]? = some task' ∧ task.status = .skipped ∧
          task.taskHash = task'.taskHash ∧ task.resultHash = task'.resultHash := by
  have hf := parseManifest_fresh manifest
  have hi : WarmInv (parseManifest manifest) fs₀.cwd [] ⟨parseManifest manifest, fs₀⟩ :=
    ⟨rfl, ⟨hstore, hcache⟩, fun _ _ => rfl, by simp⟩
  have hend := runTasks_settled hA hf hsys hi h hwell
  rw [List.nil_append] at hend
  obtain ⟨tasks, hrun, -, hall⟩ := runTasks_again (parseManifest manifest)
    run₁.world.tasks hend.sound hcf hA.nodup
    (fun t ht => by
      obtain ⟨task, task', r, htask, htask', hdecl, -, hset⟩ := hend.settled t ht
      refine ⟨task, task', r, htask, htask', hdecl, ?_, ?_, hset⟩
      · exact (hf task (List.mem_of_getElem? htask)).taskHash
      · rw [hend.cwd]
        exact hA.outside t ht task htask) sys₂
  exact ⟨_, hrun, rfl, rfl, rfl, hall⟩

/-! ## 6. One task, run twice -/

def makeManifest : Bytes := ascii "task m \x7b\n  cmd = make\n  inputs = i\n  outputs = o\n\x7d\n"

def makeTask : Task :=
  { taskNew (ascii "m") with
    cmd := some (ascii "make"), inputs := [ascii "i"], outputs := [ascii "o"] }

theorem parseManifest_make : parseManifest makeManifest = [makeTask] := by
  rw [makeManifest, Bytes.ascii_ofList]
  decide +kernel

/-- The command writes `y`. -/
def makeSystem (y : Bytes) : System := fun _ fs =>
  if fs.Writable (ascii "o") then (0, fs.set (resolve fs.cwd (ascii "o")) (some (.file y)))
  else (1, fs)

/-- The run of a manifest of one task. -/
theorem runTasks_single {sys : TaskPtr → System} {e : Exec} (h : mainTask (sys 0) fs task = .ok e)
    (hok : e.ok = true) :
    runTasks sys [0] ⟨[task], fs⟩ = .ok ⟨true, ⟨[e.task], e.fs⟩, if e.ran then [0] else []⟩ := by
  rw [runTasks]
  simp only [List.getElem?_cons_zero, h, hok, if_true, runTasks, List.append_nil]
  rfl

/-- The array of a manifest of one task. -/
theorem taskArray_single {cwd : Path} (hdeps : task.deps = []) (hok : TaskOk cwd task) :
    TaskArray [task] [0] cwd := by
  have hget : ∀ t ∈ [0], ∀ u, [task][t]? = some u → u = task := by
    intro t ht u hu
    obtain rfl := List.mem_singleton.mp ht
    exact (Option.some.inj hu).symm
  refine ⟨by decide, .snoc .nil fun b hb => ?_, fun t ht u hu => hget t ht u hu ▸ hok.outside,
    fun t ht u hu out hout => (hok.plain out (hget t ht u hu ▸ hout)).space,
    fun t ht u hu => hget t ht u hu ▸ hok.few, fun t ht u hu _ _ _ _ _ _ _ => ?_,
    fun t ht u hu => hget t ht u hu ▸ hok.own, fun t ht u hu _ _ _ _ _ _ _ hne => ?_⟩
  · obtain ⟨d, hd, -⟩ := hb
    simp [depsOf, hdeps] at hd
  · rw [List.mem_singleton.mp ht, List.mem_singleton.mp hu]
  · rw [List.mem_singleton.mp ht, List.mem_singleton.mp hu] at hne
    exact absurd rfl hne

theorem makeTask_ok : TaskOk [ascii "w"] makeTask where
  outside := by
    intro out hout
    obtain rfl : out = ascii "o" := List.mem_singleton.mp hout
    exact not_inside_o _
  plain := by
    intro out hout
    obtain rfl : out = ascii "o" := List.mem_singleton.mp hout
    exact ⟨by decide, by decide, by decide, by decide⟩
  few := by decide
  own := by
    rintro s hs ⟨out, hout, he⟩
    obtain rfl : s = ascii "i" := List.mem_singleton.mp hs
    obtain rfl : out = ascii "o" := List.mem_singleton.mp hout
    exact absurd he (by decide)

theorem makeSystem_writes (y : Bytes) :
    CommandsWrite (fun _ => makeSystem y) [makeTask] [0] [ascii "w"] := by
  intro t ht task htask fs hcwd
  obtain rfl := List.mem_singleton.mp ht
  obtain rfl : makeTask = task := Option.some.inj htask
  change WritesOutputs makeTask fs (makeSystem y (ascii "make") fs).2
  unfold makeSystem
  split
  · rename_i hw
    refine ⟨.set (not_inside_o _) hw.notDir y, fun p hp => FS.set_node_ne _ _ ?_⟩
    rintro rfl
    exact hp ⟨ascii "o", List.mem_singleton.mpr rfl, rfl⟩
  · exact ⟨.refl fs, fun _ _ => rfl⟩

theorem storeInputs_single (hi : StoreOk fs) {s x : Bytes} (hr : fs.read s = some x) :
    storeInputs fs [s] = (some [blobHash x], fs.addObject (blobHash x) x) := by
  rw [storeInputs, hi.casStoreBlobFromFile, hr]
  simp only [storeInputs]

/-- The text of the task, for the hash of its input. -/
theorem taskText_make (h : Bytes) :
    taskText makeTask [h] = ascii "cmd=make\ninputs=" ++ h ++ ascii "\ndeps=\n" := by
  have hjoin : joinStrings (sortStrings [h]) [44] = h := rfl
  simp [taskText, makeTask, taskNew, hjoin, ascii]

theorem makeTree_hashed (x : Bytes) :
    let fs₁ := (makeTree x).addObject (blobHash x) x
    ensureTaskHash (makeTree x) makeTask = .ok (true, hashedTask fs₁ makeTask, fs₁) := by
  intro fs₁
  have hi := (makeTree_store x).ok
  have hstore : storeInputs (makeTree x) makeTask.inputs = (some [blobHash x], fs₁) :=
    storeInputs_single hi (makeTree_read x)
  obtain ⟨hs, -⟩ := storeInputs_some hi hstore
  have htext : textAt fs₁ makeTask = taskText makeTask [blobHash x] := by rw [textAt, ← hs]
  have hlen : (taskText makeTask [blobHash x]).length < 4096 := by
    rw [taskText_make, List.length_append, List.length_append, (isHash_blobHash x).length]
    decide
  refine ensureTaskHash_stored hi rfl hstore ?_
  rw [htext]
  exact hlen

theorem resultText_single {out : Bytes} (h : task.outputs = [out]) (fs : FS) :
    resultText fs task = hashAt fs out := by
  rw [resultText, h]
  rfl

/-- The run of the task: hashed, run, and recorded. -/
theorem make_run (x y : Bytes) :
    let fs₁ := (makeTree x).addObject (blobHash x) x
    let fs₂ := fs₁.set [ascii "w", ascii "o"] (some (.file y))
    ∃ run, runTasks (fun _ => makeSystem y) [0] ⟨[makeTask], makeTree x⟩ = .ok run ∧
      run.ran = [0] ∧ EndedWell run.world 0 ∧ HashedIn (makeTree x) makeTask fs₁ ∧
      WritesOutputs makeTask fs₁ fs₂ ∧ run.world.fs = recorded fs₂ makeTask (keyAt fs₁ makeTask) := by
  intro fs₁ fs₂
  have hi := (makeTree_store x).ok
  have hens := makeTree_hashed x
  obtain ⟨-, hh, -⟩ | ⟨h, -⟩ := ensureTaskHash_cases hi rfl hens
  swap
  · cases h
  have hcwd : fs₁.cwd = [ascii "w"] := hh.stores.cwd.trans (makeTree_cwd x)
  have hk := isHash_keyAt fs₁ makeTask
  have hmiss : fs₁.node (recordPath fs₁.cwd (keyAt fs₁ makeTask)) = none := by
    rw [hh.stores.node_record, makeTree_record]
  have hwo : fs₁.Writable (ascii "o") :=
    ((hh.stores.grows ∅).writable_iff (not_inside_o _)).mpr (makeTree_writable_o x)
  have hsys : system (makeSystem y) makeTask.cmd fs₁ = (0, fs₂) := by
    rw [show makeTask.cmd = some (ascii "make") from rfl, system, makeSystem, if_pos hwo, resolve_o,
      hcwd, List.singleton_append]
  have hw : WritesOutputs makeTask fs₁ fs₂ := by
    have := makeSystem_writes y 0 (List.mem_singleton.mpr rfl) makeTask rfl fs₁ hcwd
    rwa [hsys] at this
  have ho : OutsideAll fs₂.cwd makeTask.outputs := by
    rw [hw.cwd, hcwd]
    exact makeTask_ok.outside
  have hwr : fs₂.Writable (metaPath (keyAt fs₁ makeTask)) := by
    rw [hw.writable_iff, hh.stores.writable_record hk]
    exact makeTree_writable_record x hk
  have hlen : (resultText fs₂ makeTask).length < 4096 := by
    rw [resultText_single (show makeTask.outputs = [ascii "o"] from rfl), hashAt]
    cases fs₂.read (ascii "o") with
    | none => decide
    | some d =>
      rw [Option.map_some, Option.getD_some, (isHash_blobHash d).length]
      decide
  have hmain := mainTask_success hens ((read_metaPath_eq_none hk fs₁).mpr hmiss) hsys
    (hw.storeInv hh.ok) ho hlen hwr
  exact ⟨_, runTasks_single hmain rfl, rfl, ⟨_, List.getElem?_cons_zero, .inr rfl⟩, hh, hw, rfl⟩

/-- Among more than `256 ^ 32` texts there are two with one hash. -/
theorem exists_collision {α : Type*} [Fintype α] (hc : 256 ^ 32 < Fintype.card α)
    (f : α → Bytes) : ∃ a b, a ≠ b ∧ sha256 (f a) = sha256 (f b) := by
  let g : α → Fin 32 → Fin 256 := fun a i =>
    ((sha256 (f a)).get (i.cast (sha256_length _).symm)).toFin
  have hcard : Fintype.card (Fin 32 → Fin 256) < Fintype.card α := by simpa using hc
  obtain ⟨a, b, hne, he⟩ := Fintype.exists_ne_map_eq_of_card_lt g hcard
  refine ⟨a, b, hne, List.ext_getElem (by rw [sha256_length, sha256_length]) fun i h1 h2 => ?_⟩
  rw [sha256_length] at h1
  exact UInt8.toFin_inj.mp (congrFun he ⟨i, h1⟩)

theorem card_bytes33 : 256 ^ 32 < Fintype.card (Fin 33 → Fin 256) := by
  rw [Fintype.card_fun, Fintype.card_fin, Fintype.card_fin]
  exact Nat.pow_lt_pow_right (by omega) (by omega)

theorem bytes33_injective :
    Function.Injective fun a : Fin 33 → Fin 256 => (List.ofFn a).map UInt8.ofFin := by
  intro a b h
  refine List.ofFn_injective (List.map_injective_iff.mpr (fun u v huv => ?_) h)
  exact congrArg UInt8.toFin huv

/-- **Two contents with one hash** break it: the run stores the input `x` and then not the output
`y`, and the second run restores `x`. -/
theorem warm_run_collision :
    ∃ (manifest : Bytes) (order : List TaskPtr) (fs₀ : FS) (sys : TaskPtr → System)
      (run₁ run₂ : MainRun) (p : Path),
      ((parseManifest manifest).map Task.name).Nodup ∧
      TaskArray (parseManifest manifest) order fs₀.cwd ∧ StoreOk fs₀ ∧ CacheIntact fs₀ ∧
      CommandsWrite sys (parseManifest manifest) order fs₀.cwd ∧
      runTasks sys order ⟨parseManifest manifest, fs₀⟩ = .ok run₁ ∧
      (∀ t ∈ order, EndedWell run₁.world t) ∧
      runTasks sys order ⟨parseManifest manifest, run₁.world.fs⟩ = .ok run₂ ∧
      ¬ Inside fs₀.cwd p ∧ run₂.world.fs.node p ≠ run₁.world.fs.node p := by
  obtain ⟨a, b, hne, he⟩ := exists_collision card_bytes33 fun a => (List.ofFn a).map UInt8.ofFin
  generalize hx : (List.ofFn a).map UInt8.ofFin = x at he
  generalize hy : (List.ofFn b).map UInt8.ofFin = y at he
  have hxy : x ≠ y := by
    rintro rfl
    exact hne (bytes33_injective (hx.trans hy.symm))
  have hhash : blobHash x = blobHash y := congrArg hexEncode he
  obtain ⟨run, hrun, -, hwell, hh, hw, hfs⟩ := make_run x y
  have hcwd := hh.stores.cwd.trans (makeTree_cwd x)
  have hmiss : ((makeTree x).addObject (blobHash x) x).node (recordPath
      ((makeTree x).addObject (blobHash x) x).cwd
      (keyAt ((makeTree x).addObject (blobHash x) x) makeTask)) = none := by
    rw [hh.stores.node_record, makeTree_record]
  have hok : TaskOk ((makeTree x).addObject (blobHash x) x).cwd makeTask := by
    rw [hcwd]
    exact makeTask_ok
  have hset := settled_success hh hok hw hmiss
  have hobj := FS.addObject_node_object (makeTree_object x (blobHash x)) x
  rw [← FS.addObject_cwd (makeTree x) (blobHash x) x] at hobj
  generalize (makeTree x).addObject (blobHash x) x = fs₁ at *
  have hnode : (fs₁.set [ascii "w", ascii "o"] (some (.file y))).node [ascii "w", ascii "o"]
      = some (.file y) := FS.set_node_self ..
  generalize fs₁.set [ascii "w", ascii "o"] (some (.file y)) = fs₂ at *
  obtain ⟨hi₂, ho₂, hmiss₂⟩ := hw.unrecorded hh.ok hok.outside hmiss
  have hg := recorded_grows hi₂ ho₂ hmiss₂ ∅
  have hiE : StoreOk (recorded fs₂ makeTask (keyAt fs₁ makeTask)) :=
    recorded_storeInv hi₂ ho₂ hmiss₂ hi₂ fun _ _ _ _ => Set.mem_univ _
  have hcwd₂ : fs₂.cwd = [ascii "w"] := hw.cwd.trans hcwd
  have hwo : fs₂.Writable (ascii "o") := by
    rw [hw.writable_iff, (hh.stores.grows ∅).writable_iff (not_inside_o _)]
    exact makeTree_writable_o x
  have hentries : (recordOf fs₂ makeTask).outputs = [(ascii "o", blobHash y)] := by
    have hread : fs₂.read (ascii "o") = some y := by
      rw [FS.read, FS.lookup, if_neg (by decide), resolve_o, hcwd₂, List.singleton_append, hnode]
      rfl
    change outputEntries fs₂ [ascii "o"] = _
    rw [outputEntries, List.filterMap_cons, hread]
    rfl
  have hobjE : (recorded fs₂ makeTask (keyAt fs₁ makeTask)).node
      (objectPath fs₂.cwd (blobHash y)) = some (.file x) := by
    refine hg.keep _ _ (inside_objects (objects_objectPath ..)) ?_
    rw [hw.cwd, hw.object, ← hhash, hobj]
  have hnodeE : (recorded fs₂ makeTask (keyAt fs₁ makeTask)).node [ascii "w", ascii "o"]
      = some (.file y) := by
    rw [hg.node_eq (Set.notMem_empty _) (by simp [hnode]), hnode]
  have hwrites : restoreWrites (recorded fs₂ makeTask (keyAt fs₁ makeTask)) makeTask.outputs
      (recordOf fs₂ makeTask).outputs = [([ascii "w", ascii "o"], x)] := by
    have hwoE : (recorded fs₂ makeTask (keyAt fs₁ makeTask)).Writable (ascii "o") := by
      rwa [hg.writable_iff (not_inside_o _)]
    have hblob : blobAt (recorded fs₂ makeTask (keyAt fs₁ makeTask)) (blobHash y) = x := by
      rw [blobAt, hg.cwd, hobjE]
    rw [hentries, restoreWrites, List.flatMap_singleton, hblob, hg.cwd, hcwd₂,
      show makeTask.outputs = [ascii "o"] from rfl, List.filter_cons_of_pos (by simpa using hwoE)]
    rfl
  have hagain : mainTask (makeSystem y) (recorded fs₂ makeTask (keyAt fs₁ makeTask)) makeTask = _ :=
    mainTask_again _ hiE hset rfl rfl (by rw [hg.cwd]; exact ho₂)
  obtain ⟨e, hagain, hok₂, hfs₂⟩ : ∃ e, mainTask (makeSystem y)
      (recorded fs₂ makeTask (keyAt fs₁ makeTask)) makeTask = .ok e ∧ e.ok = true ∧
      e.fs = (recorded fs₂ makeTask (keyAt fs₁ makeTask)).setFiles [([ascii "w", ascii "o"], x)] :=
    ⟨_, hagain, rfl, by rw [hwrites]⟩
  refine ⟨makeManifest, [0], makeTree x, fun _ => makeSystem y, run,
    ⟨true, ⟨[e.task], e.fs⟩, if e.ran then [0] else []⟩, [ascii "w", ascii "o"], ?_, ?_,
    (makeTree_store x).ok, makeTree_cache x, ?_, ?_, ?_, ?_, ?_, ?_⟩
  · decide +kernel
  · rw [parseManifest_make, makeTree_cwd]
    exact taskArray_single rfl makeTask_ok
  · rw [parseManifest_make, makeTree_cwd]
    exact makeSystem_writes y
  · rw [parseManifest_make]
    exact hrun
  · intro t ht
    rwa [List.mem_singleton.mp ht]
  · rw [parseManifest_make, hfs]
    exact runTasks_single hagain hok₂
  · rw [makeTree_cwd]
    exact not_inside_o _
  · dsimp only
    rw [hfs, hfs₂, hnodeE, FS.setFiles_node]
    simpa [lastWrite] using hxy

/-- The text of the record, for the content `x` of the input and of the output. -/
def makeRecordText (x : Bytes) : Bytes :=
  recordText (blobHash (taskText makeTask [blobHash x]))
    ⟨blobHash (blobHash x), [(ascii "o", blobHash x)]⟩

/-- What is hashed and what is left are told apart by their digests. -/
theorem makeTexts_nodup : ([[], ascii "x", makeRecordText (ascii "x"),
    taskText makeTask [blobHash (ascii "x")]].map sha256).Nodup := by
  rw [makeRecordText, blobHash_digest (by decide : (ascii "x").length < 2 ^ 61),
    blobHash_digest (by decide +kernel), blobHash_digest (by decide +kernel),
    map_sha256 (by decide +kernel)]
  decide +kernel

theorem makeRecordText_hash : sha256 (makeRecordText (ascii "x")) ≠ sha256 (ascii "x") := by
  have h := makeTexts_nodup
  simp only [List.map_cons, List.nodup_cons, List.mem_cons, not_or] at h
  exact Ne.symm h.2.1.1

/-- The files the run leaves when the command copies the input. -/
theorem contents_make {x : Bytes} {fs₁ : FS}
    (hh : HashedIn (makeTree x) makeTask fs₁) {fs₂ : FS} (hw : WritesOutputs makeTask fs₁ fs₂)
    (hnode : fs₂.node [ascii "w", ascii "o"] = some (.file x)) :
    contents (recorded fs₂ makeTask (keyAt fs₁ makeTask)) ⊆ {x, makeRecordText x} := by
  have hcwd : fs₁.cwd = [ascii "w"] := hh.stores.cwd.trans (makeTree_cwd x)
  have hcwd₂ : fs₂.cwd = [ascii "w"] := hw.cwd.trans hcwd
  have hread₁ : fs₁.read (ascii "i") = some x := hh.stores.read (makeTree_read x)
  have hread₂ : fs₂.read (ascii "o") = some x := by
    rw [FS.read, FS.lookup, if_neg (by decide), resolve_o, hcwd₂, List.singleton_append, hnode]
    rfl
  have hinputs : makeTask.inputs = [ascii "i"] := rfl
  have houtputs : makeTask.outputs = [ascii "o"] := rfl
  have htext : recordText (keyAt fs₁ makeTask) (recordOf fs₂ makeTask) = makeRecordText x := by
    rw [keyAt, textAt, hinputs, recordOf, resultAt, resultText_single houtputs, houtputs,
      List.map_singleton, hashAt, hread₁, hashAt, hread₂, outputEntries, List.filterMap_cons, hread₂]
    rfl
  have ho₂ : OutsideAll fs₂.cwd makeTask.outputs := by
    rw [hcwd₂]
    exact makeTask_ok.outside
  have hS₁ : StoreInv {x} fs₁ := by
    refine hh.inv {x} ((makeTree_store x).mono (Set.empty_subset _)) fun s hs data hr => ?_
    rw [hinputs, List.mem_singleton] at hs
    subst hs
    rw [hread₁] at hr
    exact (Option.some.inj hr).symm
  have hi₂ := hw.storeInv hh.ok
  obtain ⟨h1, -, -, h4⟩ := outputsStored_stores hi₂ ho₂
  have hS : StoreInv {x} (outputsStored fs₂ makeTask) := by
    refine h4 {x} (hw.storeInv hS₁) fun out hout data hr => ?_
    rw [houtputs, List.mem_singleton] at hout
    subst hout
    rw [hread₂] at hr
    exact (Option.some.inj hr).symm
  rintro data ⟨p, hp⟩
  by_cases hrec : p = recordPath fs₂.cwd (keyAt fs₁ makeTask)
  · rw [hrec, recorded, FS.set_node_self, htext] at hp
    exact .inr (Node.file.inj (Option.some.inj hp)).symm
  rw [recorded, FS.set_node_ne _ _ hrec] at hp
  by_cases hobj : objectsDir fs₂.cwd <+: p
  · obtain ⟨q, rfl⟩ := hobj
    rw [← h1.cwd] at hp
    exact .inl (hS.file hp).1
  rw [h1.elsewhere p hobj] at hp
  by_cases hpo : p = [ascii "w", ascii "o"]
  · rw [hpo, hnode] at hp
    exact .inl (Node.file.inj (Option.some.inj hp)).symm
  rw [hw.elsewhere p, hh.stores.elsewhere p (by rwa [← hh.stores.cwd, ← hw.cwd])] at hp
  · by_cases hpi : p = [ascii "w", ascii "i"]
    · rw [hpi, makeTree_eq, FS.set_node_self] at hp
      exact .inl (Node.file.inj (Option.some.inj hp)).symm
    · rw [makeTree_node x hpi, FS.addDirs_node, workDir] at hp
      split at hp
      · cases hp
      · dsimp only at hp
        split at hp <;> cases hp
  · rintro ⟨out, hout, rfl⟩
    rw [houtputs, List.mem_singleton] at hout
    subst hout
    rw [resolve_o, hcwd] at hpo
    exact hpo rfl

/-- A command that copies its input, and a second run whose command would not. -/
theorem warm_run_make :
    ∃ run₁ run₂, runTasks (fun _ => makeSystem (ascii "x")) [0]
        ⟨parseManifest makeManifest, makeTree (ascii "x")⟩ = .ok run₁ ∧ run₁.ran = [0] ∧
      runTasks (fun _ => makeSystem []) [0] ⟨parseManifest makeManifest, run₁.world.fs⟩ = .ok run₂ ∧
      run₂.ok = true ∧ run₂.ran = [] ∧ run₂.world.fs = run₁.world.fs := by
  obtain ⟨run, hrun, hran, hwell, hh, hw, hfs⟩ := make_run (ascii "x") (ascii "x")
  have hcf : CollisionFree (contents run.world.fs) := by
    rw [hfs]
    refine Set.InjOn.mono (contents_make hh hw (FS.set_node_self ..)) ?_
    have hne := makeRecordText_hash
    rintro a (rfl | rfl) b (rfl | rfl) hab
    · rfl
    · exact absurd hab.symm hne
    · exact absurd hab hne
    · rfl
  rw [← parseManifest_make] at hrun
  have hA : TaskArray (parseManifest makeManifest) [0] (makeTree (ascii "x")).cwd := by
    rw [parseManifest_make, makeTree_cwd]
    exact taskArray_single rfl makeTask_ok
  have hsys : CommandsWrite (fun _ => makeSystem (ascii "x")) (parseManifest makeManifest) [0]
      (makeTree (ascii "x")).cwd := by
    rw [parseManifest_make, makeTree_cwd]
    exact makeSystem_writes (ascii "x")
  obtain ⟨run₂, h1, h2, h3, h4, -⟩ := warm_run hA (makeTree_store (ascii "x")).ok
    (makeTree_cache (ascii "x")) hsys hrun
    (fun t ht => by rwa [List.mem_singleton.mp ht]) hcf fun _ => makeSystem []
  exact ⟨run, run₂, hrun, hran, h1, h2, h3, h4⟩

end ReproVM
