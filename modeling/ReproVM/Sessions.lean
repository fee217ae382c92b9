/-
# Histories of runs

A history is any sequence of serial runs from an empty store, with edits between them: of the
manifest, which each run reads anew, and of anything outside `.reprovm`.  A run starts with
`cas_init`, plans, and makes its passes; each pass hashes its task and calls `execute_task`.

`TreeInv` is what holds in every state: the store holds what was hashed, and every record was
written by a call of the history that succeeded, which the record still tells.
-/
import ReproVM.Main
import ReproVM.Planning

namespace ReproVM

open Bytes (ascii)
open Lib (Run)

/-! ## 1. Commands and calls -/

/-- A command as a function of its text and of what the declared inputs hold: what each output
is to hold. -/
abbrev Command := Bytes → (Bytes → Option Bytes) → Bytes → Bytes

/-- What the declared inputs hold. -/
def inputMap (fs : FS) (task : Task) (p : Bytes) : Option Bytes :=
  if p ∈ task.inputs then fs.read p else none

/-- `system` does in the tree `fs` what the function says: whatever else it does outside
`.reprovm`, where it returns 0 each declared output holds its value. -/
structure Computes (F : Command) (sys : System) (task : Task) (fs : FS) : Prop where
  edits : EditOutside fs (system sys task.cmd fs).2
  outputs : (system sys task.cmd fs).1 = 0 → ∀ out ∈ task.outputs,
    (system sys task.cmd fs).2.read out = some (F (task.cmd.getD []) (inputMap fs task) out)

/-- A call of `execute_task`: the task as it was parsed, the tree in which it was hashed, and
what the call left. -/
structure Call where
  task : Task
  fs : FS
  exec : Exec

namespace Call

def status (c : Call) : TaskStatus := c.exec.task.status

def cmd (c : Call) : Bytes := c.task.cmd.getD []

/-- What the inputs held, by their paths. -/
def inputs (c : Call) : Bytes → Option Bytes := inputMap c.fs c.task

/-- What the inputs held, in the order of the declaration. -/
def contents (c : Call) : List Bytes := c.task.inputs.map fun p => (c.fs.read p).getD []

/-- What was hashed: the inputs, the text of the task, and the outputs where the command ran. -/
def data (c : Call) : Set Bytes :=
  {d | (∃ p ∈ c.task.inputs, c.fs.read p = some d) ∨ d = textAt c.fs c.task ∨
    c.exec.ran = true ∧ ∃ out ∈ c.task.outputs, c.exec.fs.read out = some d}

end Call

/-! ## 2. The system -/

/-- Between two runs, or in the loop of one, with the tasks and the rest of the sorted array. -/
inductive Phase
  | idle
  | loop (tasks : TaskList) (rest : List TaskPtr)

structure Session where
  fs : FS
  phase : Phase

inductive Event
  /-- an edit, or a run begins or ends -/
  | other
  /-- `compute_task_hash` fails; the tree as it leaves it -/
  | hashFailed (task : Task) (fs : FS)
  | call (c : Call)

def Event.data : Event → Set Bytes
  | .other => ∅
  | .hashFailed task fs => {d | ∃ p ∈ task.inputs, fs.read p = some d}
  | .call c => c.data

/-- All that was hashed. -/
def involved (tr : List Event) : Set Bytes := {d | ∃ e ∈ tr, d ∈ e.data}

/-- The outputs lie outside `.reprovm`, and their names have no space. -/
def OutputsFit (cwd : Path) (task : Task) : Prop :=
  OutsideAll cwd task.outputs ∧ ∀ out ∈ task.outputs, 32 ∉ out

inductive SessionStep (F : Command) : Session → Event → Session → Prop
  | edit {fs fs' : FS} (h : EditOutside fs fs') : SessionStep F ⟨fs, .idle⟩ .other ⟨fs', .idle⟩
  /-- a run that does not get to its loop -/
  | noLoop (fs : FS) : SessionStep F ⟨fs, .idle⟩ .other ⟨(casInit fs (ascii ".")).2, .idle⟩
  | start {fs : FS} {moves : Nat → Bool} {fuel : Nat} {manifest : Bytes} {targets : List Bytes}
      {order : List TaskPtr} (hplan : plan moves fuel manifest targets = .ok (.sorted order)) :
      SessionStep F ⟨fs, .idle⟩ .other
        ⟨(casInit fs (ascii ".")).2, .loop (parseManifest manifest) order⟩
  | hashFailed {fs fs₁ : FS} {tasks : TaskList} {t : TaskPtr} {rest : List TaskPtr}
      {task task₁ : Task} (htask : tasks[t]? = some task)
      (hhash : ensureTaskHash fs task = .ok (false, task₁, fs₁)) :
      SessionStep F ⟨fs, .loop tasks (t :: rest)⟩ (.hashFailed task fs₁) ⟨fs₁, .idle⟩
  | call {fs fs₁ : FS} {tasks : TaskList} {t : TaskPtr} {rest : List TaskPtr} {task task₁ : Task}
      {sys : System} {e : Exec} (htask : tasks[t]? = some task)
      (hhash : ensureTaskHash fs task = .ok (true, task₁, fs₁)) (hfit : OutputsFit fs₁.cwd task)
      (hsys : Computes F sys task fs₁) (hexec : executeTask sys fs₁ task₁ = .ok e) :
      SessionStep F ⟨fs, .loop tasks (t :: rest)⟩ (.call ⟨task, fs₁, e⟩)
        ⟨e.fs, if e.ok then .loop (tasks.set t e.task) rest else .idle⟩
  | finish (fs : FS) (tasks : TaskList) :
      SessionStep F ⟨fs, .loop tasks []⟩ .other ⟨fs, .idle⟩

/-- The loop of `main` is a part of a history. -/
theorem runTasks_session {F : Command} {sys : TaskPtr → System} {order : List TaskPtr}
    {tasks : TaskList} {fs : FS} {run : MainRun}
    (hsys : ∀ t ∈ order, ∀ task fs', tasks[t]? = some task →
      OutputsFit fs'.cwd task ∧ Computes F (sys t) task fs')
    (hnd : order.Nodup) (hrun : runTasks sys order ⟨tasks, fs⟩ = .ok run) :
    ∃ tr, Run (SessionStep F) ⟨fs, .loop tasks order⟩ tr ⟨run.world.fs, .idle⟩ := by
  induction order generalizing tasks fs run with
  | nil =>
    cases hrun
    exact ⟨_, .single (.finish fs tasks)⟩
  | cons t order ih =>
    obtain ⟨ht, hnd⟩ := List.nodup_cons.mp hnd
    unfold runTasks at hrun
    cases htask : tasks[t]? with
    | none => simp [htask] at hrun
    | some task =>
      simp only [htask] at hrun
      cases hm : mainTask (sys t) fs task with
      | error e => simp [hm] at hrun
      | ok e =>
        simp only [hm] at hrun
        unfold mainTask at hm
        rcases hens : ensureTaskHash fs task with _ | ⟨ok, task₁, fs₁⟩ <;> rw [hens] at hm
        · cases hm
        cases ok with
        | false =>
          cases hm
          cases hrun
          exact ⟨_, .single (.hashFailed htask hens)⟩
        | true =>
          replace hm : executeTask (sys t) fs₁ task₁ = .ok e := hm
          obtain ⟨hfit, hcomp⟩ := hsys t List.mem_cons_self task fs₁ htask
          have hstep : SessionStep F ⟨fs, .loop tasks (t :: order)⟩ (.call ⟨task, fs₁, e⟩) _ :=
            .call htask hens hfit hcomp hm
          by_cases hok : e.ok = true
          · rw [if_pos hok] at hrun hstep
            cases hr : runTasks sys order ⟨tasks.set t e.task, e.fs⟩ with
            | error e => simp [hr] at hrun
            | ok run' =>
              simp only [hr] at hrun
              cases hrun
              have hrest : ∀ u ∈ order, ∀ v fs', (tasks.set t e.task)[u]? = some v →
                  OutputsFit fs'.cwd v ∧ Computes F (sys u) v fs' := by
                intro u hu v fs' hv
                have hne : t ≠ u := fun h => ht (h ▸ hu)
                rw [List.getElem?_set_ne hne] at hv
                exact hsys u (List.mem_cons_of_mem _ hu) v fs' hv
              obtain ⟨tr, hrun'⟩ := ih hrest hnd hr
              exact ⟨_, hrun'.cons hstep⟩
          · rw [if_neg hok] at hrun hstep
            cases hrun
            exact ⟨_, .single hstep⟩

/-! ## 3. What the tree holds -/

/-- What is known of a call that was made. -/
structure CallOk (cwd : Path) (c : Call) : Prop where
  newline : 10 ∉ c.cmd
  inputs : ∀ p ∈ c.task.inputs, c.fs.read p ≠ none
  outside : OutsideAll cwd c.task.outputs
  plain : ∀ out ∈ c.task.outputs, PlainName out

/-- The record of `key` was written by the call `c`. -/
structure WrittenBy (F : Command) (fs : FS) (key : Bytes) (c : Call) : Prop where
  hash : keyAt c.fs c.task = key
  status : c.status = .success
  ran : c.exec.ran = true
  text : fs.node (recordPath fs.cwd key) =
    some (.file (recordText key (recordOf c.exec.fs c.task)))
  outputs : ∀ out ∈ c.task.outputs, c.exec.fs.read out = some (F c.cmd c.inputs out)
  cwd : c.exec.fs.cwd = fs.cwd
  intact : ∀ entry ∈ (recordOf c.exec.fs c.task).outputs, Intact fs entry.2

/-- The store holds what was hashed, and every record was written by a call. -/
structure TreeInv (F : Command) (tr : List Event) (fs : FS) : Prop where
  store : StoreInv (involved tr) fs
  cache : fs.node (cacheDir fs.cwd) = some .dir
  calls : ∀ c, .call c ∈ tr → CallOk fs.cwd c
  records : ∀ key, IsHash key → fs.node (recordPath fs.cwd key) ≠ none →
    ∃ c, .call c ∈ tr ∧ WrittenBy F fs key c

variable {F : Command} {tr : List Event} {fs fs₁ fs' : FS} {task : Task} {sys : System}

theorem involved_mono {tr' : List Event} (h : tr ⊆ tr') : involved tr ⊆ involved tr' := by
  rintro d ⟨e, he, hd⟩
  exact ⟨e, h he, hd⟩

theorem involved_subset {S : Set Bytes} (h : ∀ e ∈ tr, e.data ⊆ S) : involved tr ⊆ S := by
  rintro d ⟨e, he, hd⟩
  exact h e he hd

theorem data_subset_involved {e : Event} (h : e ∈ tr) : e.data ⊆ involved tr := fun _ hd =>
  ⟨e, h, hd⟩

/-- Inside `.reprovm` nothing goes, and no record comes. -/
structure KeepsRecords (fs fs' : FS) : Prop where
  cwd : fs'.cwd = fs.cwd
  keep : ∀ p n, Inside fs.cwd p → fs.node p = some n → fs'.node p = some n
  record : ∀ key, fs'.node (recordPath fs.cwd key) = fs.node (recordPath fs.cwd key)

theorem KeepsRecords.trans {fs₁ fs₂ fs₃ : FS} (h : KeepsRecords fs₁ fs₂) (h' : KeepsRecords fs₂ fs₃) :
    KeepsRecords fs₁ fs₃ where
  cwd := h'.cwd.trans h.cwd
  keep p n hp hn := h'.keep p n (by rwa [h.cwd]) (h.keep p n hp hn)
  record key := by
    rw [← h.record key, ← h.cwd]
    exact h'.record key

theorem EditOutside.keepsRecords (h : EditOutside fs fs') : KeepsRecords fs fs' where
  cwd := h.cwd
  keep p n hp hn := by
    obtain ⟨q, rfl⟩ := hp
    rw [h.inside, hn]
  record key := by
    obtain ⟨q, hq⟩ := inside_recordPath fs.cwd key
    rw [← hq, h.inside]

theorem Stores.keepsRecords (h : Stores fs fs') : KeepsRecords fs fs' where
  cwd := h.cwd
  keep p n _ hn := h.keep p n hn
  record key := h.elsewhere _ (not_objects_recordPath fs.cwd key)

theorem FilesOnly.keepsRecords (h : FilesOnly fs fs') : KeepsRecords fs fs' where
  cwd := h.cwd
  keep p n hp hn := by rw [h.inside p hp, hn]
  record key := h.record key

/-- A call keeps what it wrote. -/
theorem WrittenBy.grow {key : Bytes} {c : Call} (h : WrittenBy F fs key c)
    (hcwd : fs'.cwd = fs.cwd)
    (hkeep : ∀ p n, Inside fs.cwd p → fs.node p = some n → fs'.node p = some n) :
    WrittenBy F fs' key c where
  hash := h.hash
  status := h.status
  ran := h.ran
  text := by
    rw [hcwd]
    exact hkeep _ _ (inside_recordPath ..) h.text
  outputs := h.outputs
  cwd := h.cwd.trans hcwd.symm
  intact entry he := by
    obtain ⟨hash, data, hobj⟩ := h.intact entry he
    refine ⟨hash, data, ?_⟩
    rw [hcwd]
    exact hkeep _ _ (inside_objects (objects_objectPath ..)) hobj

/-- Events that write no record. -/
theorem TreeInv.keep (hi : TreeInv F tr fs) (h : KeepsRecords fs fs') {e : Event}
    (hstore : StoreInv (involved (tr ++ [e])) fs') (hcall : ∀ c, e = .call c → CallOk fs.cwd c) :
    TreeInv F (tr ++ [e]) fs' where
  store := hstore
  cache := by
    rw [h.cwd]
    exact h.keep _ _ (inside_cacheDir fs.cwd) hi.cache
  calls c hc := by
    rw [h.cwd]
    rcases List.mem_append.mp hc with hc | hc
    · exact hi.calls c hc
    · exact hcall c (List.mem_singleton.mp hc).symm
  records key hk hn := by
    rw [h.cwd, h.record] at hn
    obtain ⟨c, hc, hw⟩ := hi.records key hk hn
    exact ⟨c, List.mem_append_left _ hc, hw.grow h.cwd h.keep⟩

/-- `cas_init` does nothing where the store is there. -/
theorem casInit_again {S : Set Bytes} (hi : StoreInv S fs)
    (hc : fs.node (cacheDir fs.cwd) = some .dir) : casInit fs (ascii ".") = (true, fs) := by
  have hdot : ∃ n, fs.node (resolve fs.cwd (ascii ".")) = some n := ⟨_, hi.cwd⟩
  have hrepro : ∃ n, fs.node (resolve fs.cwd (ascii "./.reprovm")) = some n := ⟨_, hi.reprovm⟩
  have hobj : fs.mkdirAll (objectsParents ++ [objectsRoot] ++ []) = (true, fs) := by
    refine FS.mkdirAll_append (fun s hs => ?_) []
    simp only [objectsParents, List.cons_append, List.nil_append, List.mem_cons,
      List.not_mem_nil, or_false] at hs
    rcases hs with rfl | rfl | rfl | rfl
    · exact ⟨by decide, hdot⟩
    · exact ⟨by decide, hrepro⟩
    · exact ⟨by decide, _, hi.cas⟩
    · exact ⟨by decide, _, hi.objects⟩
  have hcache : fs.mkdirAll ([ascii ".", ascii "./.reprovm", cacheRoot] ++ []) = (true, fs) := by
    refine FS.mkdirAll_append (fun s hs => ?_) []
    simp only [List.mem_cons, List.not_mem_nil, or_false] at hs
    rcases hs with rfl | rfl | rfl
    · exact ⟨by decide, hdot⟩
    · exact ⟨by decide, hrepro⟩
    · exact ⟨by decide, _, hc⟩
  rw [List.append_nil] at hobj hcache
  rw [casInit_eq, hobj]
  exact hcache

/-! ## 4. One step -/

/-- The outputs after the record was written. -/
theorem read_recorded_output (hi : StoreOk fs) (ho : OutsideAll fs.cwd task.outputs) {key : Bytes}
    (hn : fs.node (recordPath fs.cwd key) = none) :
    ∀ out ∈ task.outputs, (recorded fs task key).read out = fs.read out := fun out hout =>
  FS.read_congr (recorded_grows hi ho hn ∅).cwd
    ((recorded_grows hi ho hn ∅).outside _ (ho out hout) (Set.notMem_empty _))

/-- What an output line of a record of the history says. -/
theorem WrittenBy.readRecord {key content : Bytes} {c : Call} {r : Record} (h : WrittenBy F fs key c)
    (hc : CallOk fs.cwd c) (hread : fs.read (metaPath key) = some content)
    (hr : readRecord content = .ok r) : r.outputs = outputEntries c.exec.fs c.task.outputs := by
  have hk : IsHash key := h.hash ▸ isHash_keyAt c.fs c.task
  have hentry : ∀ entry ∈ (recordOf c.exec.fs c.task).outputs,
      PlainName entry.1 ∧ IsHash entry.2 := by
    intro entry he
    obtain ⟨out, hout, hsome⟩ := List.mem_filterMap.mp he
    obtain ⟨data, -, rfl⟩ := Option.map_eq_some_iff.mp hsome
    exact ⟨hc.plain out hout, isHash_blobHash data⟩
  have hline : ∀ entry ∈ (recordOf c.exec.fs c.task).outputs,
      LineName entry.1 ∧ IsHash entry.2 := fun entry he =>
    ⟨(hentry entry he).1.lineName, (hentry entry he).2⟩
  have hsame : (recordOf c.exec.fs c.task).outputs.map readEntry
      = (recordOf c.exec.fs c.task).outputs := by
    conv_rhs => rw [← List.map_id (recordOf c.exec.fs c.task).outputs]
    refine List.map_congr_left fun entry he => ?_
    exact (readEntry_eq_iff (hline entry he).1 (hline entry he).2).mpr (hentry entry he).1.space
  rw [read_metaPath hk, h.text] at hread
  obtain rfl := Option.some.inj hread
  rw [readRecord_recordText_eq hk (isHash_blobHash _) hline, hsame] at hr
  split at hr
  · obtain rfl := Except.ok.inj hr
    rfl
  · cases hr

/-- **A hit** finds the record of an earlier call. -/
theorem TreeInv.hit (hi : TreeInv F tr fs) (hs : Stores fs fs₁) {key content : Bytes} {r : Record}
    (hk : IsHash key) (hread : fs₁.read (metaPath key) = some content)
    (hr : readRecord content = .ok r) :
    ∃ c, .call c ∈ tr ∧ WrittenBy F fs₁ key c ∧ r.outputs = outputEntries c.exec.fs c.task.outputs := by
  have hn : fs.node (recordPath fs.cwd key) ≠ none := by
    rw [← hs.node_record, ← resolve_metaPath hk]
    exact FS.node_ne_none_of_read hread
  obtain ⟨c, hc, hw⟩ := hi.records key hk hn
  have hw₁ := hw.grow hs.cwd hs.keepsRecords.keep
  have hok : CallOk fs₁.cwd c := by
    rw [hs.cwd]
    exact hi.calls c hc
  exact ⟨c, hc, hw₁, hw₁.readRecord hok hread hr⟩

/-- The restores of a hit. -/
theorem TreeInv.restoreAll (hi : TreeInv F tr fs) (hh : HashedIn fs task fs₁)
    (ho : OutsideAll fs₁.cwd task.outputs) {content : Bytes} {r : Record}
    (hread : fs₁.read (metaPath (keyAt fs₁ task)) = some content)
    (hr : readRecord content = .ok r) :
    restoreAll fs₁ task.outputs r.outputs =
      fs₁.setFiles (restoreWrites fs₁ task.outputs r.outputs) := by
  obtain ⟨c, -, hw, hout⟩ := hi.hit hh.stores (isHash_keyAt fs₁ task) hread hr
  refine restoreOutputs_eq hh.ok ho fun entry he => hw.intact entry ?_
  rw [hout] at he
  exact he

/-- What is known of the call that is made. -/
theorem callOk_of_hashed (hfresh : FreshTask task) (hnl : 10 ∉ task.cmd.getD [])
    (hh : HashedIn fs task fs₁) (hfit : OutputsFit fs₁.cwd task) (e : Exec) :
    CallOk fs.cwd ⟨task, fs₁, e⟩ where
  newline := hnl
  inputs p hp := by
    obtain ⟨data, hr, -⟩ := hh.inputs p hp
    rw [hr]
    simp
  outside := by
    rw [← hh.stores.cwd]
    exact hfit.1
  plain out hout := by
    obtain ⟨hne, -, hline⟩ := hfresh.outputs out hout
    exact ⟨hne, fun h => (hline _ h).1 rfl, fun h => (hline _ h).2 rfl, hfit.2 out hout⟩

/-- **A call of `execute_task`.** -/
theorem TreeInv.call (hi : TreeInv F tr fs) (hfresh : FreshTask task) (hnl : 10 ∉ task.cmd.getD [])
    (hh : HashedIn fs task fs₁) (hfit : OutputsFit fs₁.cwd task) (hsys : Computes F sys task fs₁)
    {e : Exec} (hexec : ExecCall sys fs₁ task e) :
    TreeInv F (tr ++ [Event.call ⟨task, fs₁, e⟩]) e.fs := by
  have hok := callOk_of_hashed hfresh hnl hh hfit e
  have hcall : ∀ c, Event.call ⟨task, fs₁, e⟩ = .call c → CallOk fs.cwd c := by
    rintro c ⟨⟩
    exact hok
  have hdata : Call.data ⟨task, fs₁, e⟩ ⊆ involved (tr ++ [Event.call ⟨task, fs₁, e⟩]) :=
    data_subset_involved (e := .call ⟨task, fs₁, e⟩) (by simp)
  have hstore₁ : StoreInv (involved (tr ++ [Event.call ⟨task, fs₁, e⟩])) fs₁ :=
    hh.inv _ (hi.store.mono (involved_mono (List.subset_append_left ..))) fun p hp d hd =>
      hdata (.inl ⟨p, hp, hd⟩)
  have hkeep₁ : KeepsRecords fs fs₁ := hh.stores.keepsRecords
  have hw := hsys.edits
  cases hexec with
  | @skipped content r hread hr =>
    have hr' := hi.restoreAll hh hfit.1 hread hr
    have hf := writesOutputs_restoreWrites hfit.1 r.outputs
    rw [← hr'] at hf
    exact hi.keep (hkeep₁.trans hf.keepsRecords) (hf.storeInv hstore₁) hcall
  | @commandFailed fs₂ _ ret hrun =>
    rw [hrun] at hw
    exact hi.keep (hkeep₁.trans hw.keepsRecords) (hstore₁.edit hw) hcall
  | @recordFailed fs₂ _ hrun =>
    rw [hrun] at hw
    have ho₂ : OutsideAll fs₂.cwd task.outputs := by
      rw [hw.cwd]
      exact hfit.1
    obtain ⟨-, hs, -, hinv⟩ := storeOutputs_eq (hh.ok.edit hw) ho₂
    refine hi.keep ((hkeep₁.trans hw.keepsRecords).trans hs.keepsRecords)
      (hinv _ (hstore₁.edit hw) fun out hout d hd => ?_) hcall
    refine hdata (.inr (.inr ⟨rfl, out, hout, ?_⟩))
    exact (hs.read_outside (ho₂ out hout)).trans hd
  | @success fs₂ hmiss hrun hlen =>
    have hvals := hsys.outputs
    rw [hrun] at hw hvals
    have hi₂ := hh.ok.edit hw
    have ho₂ : OutsideAll fs₂.cwd task.outputs := by
      rw [hw.cwd]
      exact hfit.1
    have hcwd₂ : fs₂.cwd = fs.cwd := hw.cwd.trans hh.stores.cwd
    have hmiss₂ : fs₂.node (recordPath fs₂.cwd (keyAt fs₁ task)) = none := by
      rw [hw.cwd, hw.keepsRecords.record, hmiss]
    have hread := read_recorded_output hi₂ ho₂ hmiss₂
    have hkeep₂ := hkeep₁.trans hw.keepsRecords
    have hg := recorded_grows hi₂ ho₂ hmiss₂ ∅
    have hcwd₃ : (recorded fs₂ task (keyAt fs₁ task)).cwd = fs.cwd := hg.cwd.trans hcwd₂
    have hkeep : ∀ p n, Inside fs.cwd p → fs.node p = some n →
        (recorded fs₂ task (keyAt fs₁ task)).node p = some n := fun p n hp hn =>
      hg.keep p n (hcwd₂ ▸ hp) (hkeep₂.keep p n hp hn)
    obtain ⟨hs₃, -, hintact, -⟩ := outputsStored_stores hi₂ ho₂
    have hkeep₃ := hkeep₂.trans hs₃.keepsRecords
    refine ⟨recorded_storeInv hi₂ ho₂ hmiss₂ (hstore₁.edit hw) fun out hout d hd => ?_, ?_,
      fun c hc => ?_, fun key hk hn => ?_⟩
    · exact hdata (.inr (.inr ⟨rfl, out, hout, (hread out hout).trans hd⟩))
    · rw [hcwd₃]
      exact hkeep _ _ (inside_cacheDir fs.cwd) hi.cache
    · rw [hcwd₃]
      rcases List.mem_append.mp hc with hc | hc
      · exact hi.calls c hc
      · exact hcall c (List.mem_singleton.mp hc).symm
    · by_cases hkey : key = keyAt fs₁ task
      · -- the record of this call
        subst hkey
        refine ⟨_, List.mem_append_right _ (List.mem_singleton_self _), rfl, rfl, rfl, ?_,
          fun out hout => ?_, rfl, fun entry he => ?_⟩
        · rw [recordOf_congr hread, hcwd₃, ← hcwd₂]
          exact FS.set_node_self ..
        · exact (hread out hout).trans (hvals rfl out hout)
        · rw [recordOf_congr hread] at he
          have hset := grows_record (node_outputsStored hi₂ ho₂ hmiss₂)
            (recordText (keyAt fs₁ task) (recordOf fs₂ task)) ∅
          rw [hs₃.cwd] at hset
          exact hset.intact (hintact entry he)
      · have hnode : (recorded fs₂ task (keyAt fs₁ task)).node (recordPath fs.cwd key)
            = fs.node (recordPath fs.cwd key) := by
          rw [← hkeep₃.record key, recorded]
          exact FS.set_node_ne _ _ fun h => hkey (recordPath_inj (hcwd₂ ▸ h))
        rw [hcwd₃, hnode] at hn
        obtain ⟨c, hc, hwr⟩ := hi.records key hk hn
        exact ⟨c, List.mem_append_left _ hc, hwr.grow hcwd₃ hkeep⟩

/-- The tasks that are left in a loop are as the parser made them. -/
def PhaseOk : Phase → Prop
  | .idle => True
  | .loop tasks rest => rest.Nodup ∧ ∀ t ∈ rest, ∀ task, tasks[t]? = some task →
      FreshTask task ∧ 10 ∉ task.cmd.getD []

theorem phaseOk_start {moves : Nat → Bool} {fuel : Nat} {manifest : Bytes} {targets : List Bytes}
    {order : List TaskPtr} (hplan : plan moves fuel manifest targets = .ok (.sorted order)) :
    PhaseOk (.loop (parseManifest manifest) order) := by
  obtain ⟨needed, hc, hperm⟩ := plan_sorted_perm hplan
  obtain ⟨hnd, -⟩ := collectNeededTasks_ok hc
  refine ⟨hperm.nodup_iff.mpr hnd, fun t _ task htask => ?_⟩
  have hmem := List.mem_of_getElem? htask
  exact ⟨parseManifest_fresh manifest task hmem, parseManifest_cmd manifest task hmem⟩

theorem PhaseOk.next {tasks : TaskList} {t : TaskPtr} {rest : List TaskPtr}
    (h : PhaseOk (.loop tasks (t :: rest))) (ok : Bool) (task' : Task) :
    PhaseOk (if ok then .loop (tasks.set t task') rest else .idle) := by
  obtain ⟨hnd, hrest⟩ := h
  obtain ⟨ht, hnd⟩ := List.nodup_cons.mp hnd
  cases ok with
  | false => trivial
  | true =>
    refine ⟨hnd, fun u hu v hv => ?_⟩
    have hne : t ≠ u := fun h => ht (h ▸ hu)
    rw [List.getElem?_set_ne hne] at hv
    exact hrest u (List.mem_cons_of_mem _ hu) v hv

/-- What is known of a session. -/
structure SessionInv (F : Command) (tr : List Event) (s : Session) : Prop where
  tree : TreeInv F tr s.fs
  phase : PhaseOk s.phase

theorem casInit_session (hi : TreeInv F tr fs) :
    TreeInv F (tr ++ [Event.other]) (casInit fs (ascii ".")).2 := by
  rw [casInit_again hi.store hi.cache]
  refine hi.keep (Stores.refl fs).keepsRecords ?_ (by simp)
  exact hi.store.mono (involved_mono (List.subset_append_left ..))

/-- A call in the loop, from what `compute_task_hash` and `execute_task` return. -/
theorem SessionInv.call {tasks : TaskList} {t : TaskPtr} {rest : List TaskPtr} {task₁ : Task}
    {e : Exec} (hi : SessionInv F tr ⟨fs, .loop tasks (t :: rest)⟩) (htask : tasks[t]? = some task)
    (hhash : ensureTaskHash fs task = .ok (true, task₁, fs₁)) (hfit : OutputsFit fs₁.cwd task)
    (hsys : Computes F sys task fs₁) (hexec : executeTask sys fs₁ task₁ = .ok e) :
    HashedIn fs task fs₁ ∧ ExecCall sys fs₁ task e ∧
      TreeInv F (tr ++ [Event.call ⟨task, fs₁, e⟩]) e.fs := by
  obtain ⟨hfresh, hnl⟩ := hi.phase.2 t List.mem_cons_self task htask
  obtain ⟨-, hh, rfl⟩ | ⟨h, -⟩ := ensureTaskHash_cases hi.tree.store.ok hfresh.taskHash hhash
  · have hcall := executeTask_cases hh.ok hfit.1 hsys.edits hexec
    exact ⟨hh, hcall, hi.tree.call hfresh hnl hh hfit hsys hcall⟩
  · cases h

/-- **One step.** -/
theorem SessionInv.step {s s' : Session} {e : Event} (hi : SessionInv F tr s)
    (h : SessionStep F s e s') : SessionInv F (tr ++ [e]) s' := by
  have hsub : involved tr ⊆ involved (tr ++ [e]) := involved_mono (List.subset_append_left ..)
  cases h with
  | edit h => exact ⟨hi.tree.keep h.keepsRecords ((hi.tree.store.mono hsub).edit h) (by simp), trivial⟩
  | noLoop fs => exact ⟨casInit_session hi.tree, trivial⟩
  | @start fs moves fuel manifest targets order hplan =>
    exact ⟨casInit_session hi.tree, phaseOk_start hplan⟩
  | @hashFailed fs fs₁ tasks t rest task task₁ htask hhash =>
    obtain ⟨hfresh, -⟩ := hi.phase.2 t List.mem_cons_self task htask
    obtain ⟨h, -⟩ | ⟨-, hs, -⟩ := ensureTaskHash_cases hi.tree.store.ok hfresh.taskHash hhash
    · cases h
    · refine ⟨hi.tree.keep hs.stores.keepsRecords ?_ (by simp), trivial⟩
      refine hs.inv _ (hi.tree.store.mono hsub) fun p hp d hd => ?_
      exact ⟨.hashFailed task fs₁, by simp, p, hp, hd⟩
  | @call fs fs₁ tasks t rest task task₁ sys e htask hhash hfit hsys hexec =>
    obtain ⟨-, -, htree⟩ := hi.call htask hhash hfit hsys hexec
    exact ⟨htree, hi.phase.next e.ok e.task⟩
  | finish fs tasks =>
    exact ⟨hi.tree.keep (Stores.refl fs).keepsRecords (hi.tree.store.mono hsub) (by simp), trivial⟩

/-! ## 5. Histories -/

theorem NoStore.sessionInv (h : NoStore fs) :
    SessionInv F [] ⟨(casInit fs (ascii ".")).2, .idle⟩ where
  tree := by
    have hcache : cacheDir fs.cwd ∈ initDirs fs.cwd := by simp [initDirs]
    refine ⟨h.runInv.store.mono ?_, ?_, by simp, fun key _ hn => ?_⟩
    · rintro d ⟨op, hop, -⟩
      cases hop
    · rw [h.init_eq, FS.addDirs_cwd, FS.addDirs_node, if_pos ⟨h.empty [ascii "cache"], hcache⟩]
    · refine absurd ?_ hn
      obtain ⟨q, hq⟩ := inside_recordPath fs.cwd key
      rw [h.init_eq, FS.addDirs_cwd, FS.addDirs_node_of_notMem]
      · rw [← hq, h.empty]
      · have hne : ascii "cache" ≠ ascii "cas" := by decide
        simp [initDirs, recordPath, cacheDir, reprovmDir, casDir, objectsDir, hne]
  phase := trivial

theorem sessionInv {fs₀ : FS} (h : NoStore fs₀) {s : Session}
    (hrun : Run (SessionStep F) ⟨(casInit fs₀ (ascii ".")).2, .idle⟩ tr s) : SessionInv F tr s :=
  hrun.inv h.sessionInv fun _ _ _ _ _ hi hs => hi.step hs

end ReproVM
