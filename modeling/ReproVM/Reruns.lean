/-
# No task is run twice

A history once more, of runs whose commands do whatever they like outside `.reprovm`.  A call that
succeeds leaves its record, and as long as no output lies in `.reprovm` nothing takes it away: the
commands do not write there, the stores only add objects, the restores write to outputs, and a
record is only written where none is.  The key of a task does not tell the order of its inputs, so
a later call with the same values finds the record and takes its result.

An output in `.reprovm` is something else: there a restore writes over what the store and the
cache hold.
-/
import ReproVM.Capacity
import ReproVM.History
import ReproVM.RoundTrip

namespace ReproVM

open Bytes (ascii)
open Lib (Run)

variable {tr : List Event} {fs fs₁ fs' : FS} {task : Task} {sys : System}

/-! ## 1. Histories -/

/-- One step of a history in which commands leave `.reprovm` alone. -/
inductive SerialStep : Session → Event → Session → Prop
  | edit {fs fs' : FS} (h : EditOutside fs fs') : SerialStep ⟨fs, .idle⟩ .other ⟨fs', .idle⟩
  /-- a run that does not get to its loop -/
  | noLoop (fs : FS) : SerialStep ⟨fs, .idle⟩ .other ⟨(casInit fs (ascii ".")).2, .idle⟩
  | start {fs : FS} {moves : Nat → Bool} {fuel : Nat} {manifest : Bytes} {targets : List Bytes}
      {order : List TaskPtr} (hplan : plan moves fuel manifest targets = .ok (.sorted order)) :
      SerialStep ⟨fs, .idle⟩ .other
        ⟨(casInit fs (ascii ".")).2, .loop (parseManifest manifest) order⟩
  | hashFailed {fs fs₁ : FS} {tasks : TaskList} {t : TaskPtr} {rest : List TaskPtr}
      {task task₁ : Task} (htask : tasks[t]? = some task)
      (hhash : ensureTaskHash fs task = .ok (false, task₁, fs₁)) :
      SerialStep ⟨fs, .loop tasks (t :: rest)⟩ (.hashFailed task fs₁) ⟨fs₁, .idle⟩
  | call {fs fs₁ : FS} {tasks : TaskList} {t : TaskPtr} {rest : List TaskPtr} {task task₁ : Task}
      {sys : System} {e : Exec} (htask : tasks[t]? = some task)
      (hhash : ensureTaskHash fs task = .ok (true, task₁, fs₁))
      (hsys : EditOutside fs₁ (system sys task.cmd fs₁).2)
      (hexec : executeTask sys fs₁ task₁ = .ok e) :
      SerialStep ⟨fs, .loop tasks (t :: rest)⟩ (.call ⟨task, fs₁, e⟩)
        ⟨e.fs, if e.ok then .loop (tasks.set t e.task) rest else .idle⟩
  | finish (fs : FS) (tasks : TaskList) :
      SerialStep ⟨fs, .loop tasks []⟩ .other ⟨fs, .idle⟩

/-- Histories whose commands are functions are among these. -/
theorem SessionStep.serialStep {F : Command} {s s' : Session} {e : Event}
    (h : SessionStep F s e s') : SerialStep s e s' := by
  cases h with
  | edit h => exact .edit h
  | noLoop fs => exact .noLoop fs
  | start hplan => exact .start hplan
  | hashFailed htask hhash => exact .hashFailed htask hhash
  | call htask hhash _ hsys hexec => exact .call htask hhash hsys.edits hexec
  | finish fs tasks => exact .finish fs tasks

/-- No output of the task that is called lies in `.reprovm`. -/
def Event.Outside : Event → Prop
  | .call c => OutsideAll c.fs.cwd c.task.outputs
  | _ => True

def OutsideStep (s : Session) (e : Event) (s' : Session) : Prop := SerialStep s e s' ∧ e.Outside

/-- The call of the task, which was hashed in the tree `fs`, has the values of the call `c`.  The
results of the dependencies, which are to be the same as well, do not matter. -/
structure SameValues (c : Call) (fs : FS) (task : Task) : Prop where
  cmd : c.cmd = task.cmd.getD []
  contents : c.contents.Perm (task.inputs.map fun p => (fs.read p).getD [])
  deps : c.task.deps = task.deps

/-- The command is not run, and the result is that of the call `c`. -/
def TakesOver (sys : System) (fs : FS) (task : Task) (c : Call) : Prop :=
  ∃ e, executeTask sys fs task = .ok e ∧ e.ran = false ∧ e.task.resultHash = c.exec.task.resultHash

/-! ## 2. What stays -/

/-- Inside `.reprovm` nothing goes. -/
structure KeepsInside (fs fs' : FS) : Prop where
  cwd : fs'.cwd = fs.cwd
  keep : ∀ p n, Inside fs.cwd p → fs.node p = some n → fs'.node p = some n

namespace KeepsInside

theorem refl (fs : FS) : KeepsInside fs fs := ⟨rfl, fun _ _ _ h => h⟩

theorem trans {fs₁ fs₂ fs₃ : FS} (h : KeepsInside fs₁ fs₂) (h' : KeepsInside fs₂ fs₃) :
    KeepsInside fs₁ fs₃ where
  cwd := h'.cwd.trans h.cwd
  keep p n hp hn := h'.keep p n (by rwa [h.cwd]) (h.keep p n hp hn)

theorem addDirs (fs : FS) (ps : List Path) : KeepsInside fs (fs.addDirs ps) :=
  ⟨rfl, fun _ _ _ hn => FS.addDirs_node_of_some hn ps⟩

end KeepsInside

theorem KeepsRecords.keepsInside (h : KeepsRecords fs fs') : KeepsInside fs fs' := ⟨h.cwd, h.keep⟩

theorem Grows.keepsInside {ps : Set Path} (h : Grows ps fs fs') : KeepsInside fs fs' :=
  ⟨h.cwd, h.keep⟩

/-- The call had its inputs, and its record is there and tells its result. -/
structure RecordKept (fs : FS) (c : Call) : Prop where
  inputs : ∀ p ∈ c.task.inputs, c.fs.read p ≠ none
  record : ∃ content r, fs.node (recordPath fs.cwd (keyAt c.fs c.task)) = some (.file content) ∧
    readRecord content = .ok r ∧ c.exec.task.resultHash = some r.resultHash

theorem RecordKept.grow {c : Call} (h : RecordKept fs c) (hk : KeepsInside fs fs') : RecordKept fs' c where
  inputs := h.inputs
  record := by
    obtain ⟨content, r, hn, hr, hres⟩ := h.record
    refine ⟨content, r, ?_, hr, hres⟩
    rw [hk.cwd]
    exact hk.keep _ _ (inside_recordPath ..) hn

/-- A tree in order that comes of `fs`. -/
structure StaysOk (fs fs' : FS) : Prop where
  ok : StoreOk fs'
  keeps : KeepsInside fs fs'

/-- A restore to a place outside, of whatever the record names. -/
theorem casRestoreBlobToFile_stays (hi : StoreOk fs) (hash : Bytes) {dest : Bytes}
    (hd : ¬ Inside fs.cwd (resolve fs.cwd dest)) :
    StaysOk fs (casRestoreBlobToFile fs hash dest).2 := by
  obtain ⟨ps, hps, he | ⟨hw, data, he⟩⟩ := casRestoreBlobToFile_cases fs hash dest
  · rw [he]
    exact ⟨hi.addDirs hps, .addDirs fs ps⟩
  · have hi' : StoreOk (fs.addDirs ps) := hi.addDirs hps
    have hne : resolve fs.cwd dest ≠ (fs.addDirs ps).cwd := by
      intro h
      have hdir := hw.notDir
      rw [FS.addDirs_cwd] at hdir h
      rw [h] at hdir
      exact hdir hi'.cwd
    have hd' : ¬ Inside (fs.addDirs ps).cwd (resolve fs.cwd dest) := hd
    have hedit := editOutside_set hd' hne (some (.file data))
    rw [he]
    exact ⟨hi'.edit hedit, (KeepsInside.addDirs fs ps).trans hedit.keepsRecords.keepsInside⟩

/-- The restores of a hit. -/
theorem restoreAll_stays (hi : StoreOk fs) {outputs : List Bytes} (ho : OutsideAll fs.cwd outputs)
    (entries : List (Bytes × Bytes)) : StaysOk fs (restoreAll fs outputs entries) := by
  have hone : ∀ (entry : Bytes × Bytes) (outs : List Bytes) (fs : FS), StoreOk fs →
      OutsideAll fs.cwd outs → StaysOk fs (restoreOutput fs outs entry) := by
    intro entry outs
    induction outs with
    | nil => exact fun fs hi _ => ⟨hi, .refl fs⟩
    | cons out outs ih =>
      intro fs hi ho
      have hstep : StaysOk fs
          (if out = entry.1 then (casRestoreBlobToFile fs entry.2 out).2 else fs) := by
        split_ifs
        · exact casRestoreBlobToFile_stays hi entry.2 (ho out List.mem_cons_self)
        · exact ⟨hi, .refl fs⟩
      have hrest := ih _ hstep.ok (by
        rw [hstep.keeps.cwd]
        exact fun o hm => ho o (List.mem_cons_of_mem _ hm))
      exact ⟨hrest.ok, hstep.keeps.trans hrest.keeps⟩
  induction entries generalizing fs with
  | nil => exact ⟨hi, .refl fs⟩
  | cons entry entries ih =>
    have hstep := hone entry outputs fs hi ho
    have hrest := ih hstep.ok (by rwa [hstep.keeps.cwd])
    exact ⟨hrest.ok, hstep.keeps.trans hrest.keeps⟩

/-! ## 3. Few outputs -/

theorem sum_length_le_joinStrings (xs : List Bytes) :
    (xs.map List.length).sum ≤ (joinStrings xs (ascii ",")).length := by
  rw [joinStrings_eq]
  induction xs with
  | nil => exact Nat.zero_le _
  | cons x xs ih =>
    cases xs with
    | nil => simp [Bytes.unpieces]
    | cons y ys =>
      rw [Bytes.unpieces, List.length_append, List.length_cons, List.map_cons, List.sum_cons]
      omega

/-- Every output that is there takes 64 bytes of the text of the result. -/
theorem outputEntries_length_le (fs : FS) (task : Task) :
    64 * (outputEntries fs task.outputs).length ≤ (resultText fs task).length := by
  have hsum : ∀ outs : List Bytes,
      64 * (outputEntries fs outs).length = ((outs.map (hashAt fs)).map List.length).sum := by
    intro outs
    induction outs with
    | nil => rfl
    | cons out outs ih =>
      rw [List.map_cons, List.map_cons, List.sum_cons, ← ih, outputEntries, List.filterMap_cons,
        hashAt]
      cases fs.read out with
      | none => exact (Nat.zero_add _).symm
      | some data =>
        rw [Option.map_some, Option.map_some, Option.getD_some, (isHash_blobHash data).length,
          List.length_cons, outputEntries]
        omega
  rw [hsum, ← ((sortStrings_perm _).map List.length).sum_eq]
  exact sum_length_le_joinStrings _

/-- So the record of a task that succeeded is read back. -/
theorem readRecord_recordOf_fresh (hfresh : FreshTask task) (hlen : (resultText fs task).length < 4096)
    {key : Bytes} (hk : IsHash key) :
    ∃ outputs, readRecord (recordText key (recordOf fs task)) = .ok ⟨resultAt fs task, outputs⟩ := by
  have hfew := outputEntries_length_le fs task
  refine ⟨(outputEntries fs task.outputs).map readEntry, ?_⟩
  rw [readRecord_recordText_eq hk (isHash_blobHash _), if_pos]
  · rfl
  · show (outputEntries fs task.outputs).length ≤ 64
    omega
  · intro entry he
    obtain ⟨out, hmem, hsome⟩ := List.mem_filterMap.mp he
    obtain ⟨data, -, rfl⟩ := Option.map_eq_some_iff.mp hsome
    exact ⟨hfresh.lineName hmem, isHash_blobHash data⟩

/-! ## 4. One step -/

theorem HashedIn.read_inputs (hh : HashedIn fs task fs₁) : ∀ p ∈ task.inputs, fs₁.read p ≠ none := by
  intro p hp
  obtain ⟨data, hr, -⟩ := hh.inputs p hp
  rw [hr]
  simp

/-- **A call** keeps what is in `.reprovm`, and leaves its record if it succeeds. -/
theorem ExecCall.stays {e : Exec} (h : ExecCall sys fs₁ task e) (hi : StoreOk fs₁)
    (hin : ∀ p ∈ task.inputs, fs₁.read p ≠ none) (hfresh : FreshTask task) (ho : OutsideAll fs₁.cwd task.outputs)
    (hsys : EditOutside fs₁ (system sys task.cmd fs₁).2) :
    StaysOk fs₁ e.fs ∧ (e.task.status = .success → RecordKept e.fs ⟨task, fs₁, e⟩) := by
  cases h with
  | @skipped content r hread hr =>
    exact ⟨restoreAll_stays hi ho r.outputs, fun h => by cases h⟩
  | @commandFailed fs₂ hmiss ret hrun hret =>
    rw [hrun] at hsys
    exact ⟨⟨hi.edit hsys, hsys.keepsRecords.keepsInside⟩, fun h => by cases h⟩
  | @recordFailed fs₂ hmiss hrun =>
    rw [hrun] at hsys
    have ho₂ : OutsideAll fs₂.cwd task.outputs := by rwa [hsys.cwd]
    obtain ⟨-, hs, hok, -⟩ := storeOutputs_eq (hi.edit hsys) ho₂
    exact ⟨⟨hok, (hsys.keepsRecords.trans hs.keepsRecords).keepsInside⟩, fun h => by cases h⟩
  | @success fs₂ hmiss hrun hlen =>
    rw [hrun] at hsys
    have hi₂ := hi.edit hsys
    have ho₂ : OutsideAll fs₂.cwd task.outputs := by rwa [hsys.cwd]
    have hk := isHash_keyAt fs₁ task
    have hmiss₂ : fs₂.node (recordPath fs₂.cwd (keyAt fs₁ task)) = none := by
      rw [hsys.cwd, hsys.keepsRecords.record, hmiss]
    have hg := recorded_grows hi₂ ho₂ hmiss₂ ∅
    obtain ⟨outputs, hback⟩ := readRecord_recordOf_fresh hfresh hlen hk
    refine ⟨⟨?_, hsys.keepsRecords.keepsInside.trans hg.keepsInside⟩, fun _ => ?_⟩
    · exact recorded_storeInv hi₂ ho₂ hmiss₂ hi₂ fun _ _ _ _ => Set.mem_univ _
    · refine ⟨hin, _, _, ?_, hback, rfl⟩
      rw [hg.cwd]
      exact FS.set_node_self ..

/-- What is known of a history. -/
structure SerialInv (tr : List Event) (s : Session) : Prop where
  store : StoreOk s.fs
  cache : s.fs.node (cacheDir s.fs.cwd) = some .dir
  phase : PhaseOk s.phase
  kept : ∀ c, .call c ∈ tr → c.status = .success → RecordKept s.fs c

/-- A step that leaves no new record. -/
theorem SerialInv.stay {s : Session} (hi : SerialInv tr s) (h : StaysOk s.fs fs') {p : Phase}
    (hp : PhaseOk p) {e : Event}
    (hnew : ∀ c, e = .call c → c.status = .success → RecordKept fs' c) :
    SerialInv (tr ++ [e]) ⟨fs', p⟩ where
  store := h.ok
  cache := by
    show fs'.node (cacheDir fs'.cwd) = some .dir
    rw [h.keeps.cwd]
    exact h.keeps.keep _ _ (inside_cacheDir s.fs.cwd) hi.cache
  phase := hp
  kept c hc hs := by
    rcases List.mem_append.mp hc with hc | hc
    · exact (hi.kept c hc hs).grow h.keeps
    · exact hnew c (List.mem_singleton.mp hc).symm hs

/-- **One step.** -/
theorem SerialInv.step {s s' : Session} {e : Event} (hi : SerialInv tr s) (h : OutsideStep s e s') :
    SerialInv (tr ++ [e]) s' := by
  obtain ⟨h, hout⟩ := h
  have hinit : StaysOk s.fs (casInit s.fs (ascii ".")).2 := by
    rw [casInit_again hi.store hi.cache]
    exact ⟨hi.store, .refl _⟩
  have hidle : PhaseOk .idle := trivial
  cases h with
  | edit h => exact hi.stay ⟨hi.store.edit h, h.keepsRecords.keepsInside⟩ hidle (by simp)
  | noLoop fs => exact hi.stay hinit hidle (by simp)
  | start hplan => exact hi.stay hinit (phaseOk_start hplan) (by simp)
  | @hashFailed fs fs₁ tasks t rest task task₁ htask hhash =>
    obtain ⟨hfresh, -⟩ := hi.phase.2 t List.mem_cons_self task htask
    obtain ⟨h, -⟩ | ⟨-, hs, -⟩ := ensureTaskHash_cases hi.store hfresh.taskHash hhash
    · cases h
    · exact hi.stay ⟨hs.ok, hs.stores.keepsRecords.keepsInside⟩ hidle (by simp)
  | @call fs fs₁ tasks t rest task task₁ sys e htask hhash hsys hexec =>
    obtain ⟨hfresh, -⟩ := hi.phase.2 t List.mem_cons_self task htask
    obtain ⟨-, hh, rfl⟩ | ⟨h, -⟩ := ensureTaskHash_cases hi.store hfresh.taskHash hhash
    · have hcall := executeTask_cases hh.ok hout hsys hexec
      obtain ⟨hstay, hnew⟩ := hcall.stays hh.ok hh.read_inputs hfresh hout hsys
      refine hi.stay ⟨hstay.ok, hh.stores.keepsRecords.keepsInside.trans hstay.keeps⟩
        (hi.phase.next e.ok e.task) ?_
      rintro c ⟨⟩ hs
      exact hnew hs
    · cases h
  | finish fs tasks => exact hi.stay ⟨hi.store, .refl _⟩ hidle (by simp)

/-! ## 5. A task that reads and writes nothing -/

/-- Commands that do nothing. -/
def idleSystem : System := fun _ fs => (0, fs)

def plainTask : Task := { taskNew (ascii "a") with cmd := some (ascii "a") }

def plainLines : Bytes := ascii "task a \x7b\ncmd = a\n\x7d\n"

def plainText : Bytes := ascii "cmd=a\ninputs=\ndeps=\n"

def plainRecord : Bytes := recordText (blobHash plainText) ⟨blobHash [], []⟩

theorem plan_plain : plan (fun _ => false) 2 plainLines [] = .ok (.sorted [0]) ∧
    parseManifest plainLines = [plainTask] := by
  decide +kernel

theorem textAt_plainTask (fs : FS) : textAt fs plainTask = plainText := by
  show taskText plainTask [] = plainText
  decide

theorem plainTask_hashed (fs : FS) :
    ensureTaskHash fs plainTask = .ok (true, hashedTask fs plainTask, fs) :=
  ensureTaskHash_noInputs rfl rfl (by rw [textAt_plainTask]; decide)

theorem keyAt_plainTask (fs : FS) : keyAt fs plainTask = blobHash plainText := by
  rw [keyAt, textAt_plainTask]

/-- It is run. -/
theorem plainTask_run (hi : StoreOk fs) (hcache : fs.node (cacheDir fs.cwd) = some .dir)
    (hmiss : fs.node (recordPath fs.cwd (blobHash plainText)) = none) :
    executeTask idleSystem fs (hashedTask fs plainTask) =
      .ok ⟨true, { hashedTask fs plainTask with
          resultHash := some (blobHash []), status := .success },
        fs.set (recordPath fs.cwd (blobHash plainText)) (some (.file plainRecord)), true⟩ := by
  have hk := isHash_blobHash plainText
  have hkey := keyAt_plainTask fs
  have hw := writable_metaPath hk hcache (by simp [hmiss])
  have hread : fs.read (metaPath (keyAt fs plainTask)) = none := by
    rwa [hkey, read_metaPath_eq_none hk]
  rw [← hkey] at hw
  have hsys : system idleSystem plainTask.cmd fs = (0, fs) := rfl
  have hlen : (resultText fs plainTask).length < 4096 := by
    show (joinStrings (sortStrings []) (ascii ",")).length < 4096
    decide
  have h := mainTask_success (plainTask_hashed fs) hread hsys hi (fun _ h => by cases h) hlen hw
  rw [mainTask_hashed (plainTask_hashed fs)] at h
  rw [h, recorded, hkey, plainRecord]
  rfl

/-- An empty store, as `cas_init` leaves it. -/
structure EmptyStore (fs : FS) : Prop where
  store : StoreOk fs
  cache : fs.node (cacheDir fs.cwd) = some .dir
  object : ∀ h, fs.node (objectPath fs.cwd h) = none
  record : ∀ key, IsHash key → fs.node (recordPath fs.cwd key) = none

theorem NoStore.emptyStore (h : NoStore fs) : EmptyStore (casInit fs (ascii ".")).2 := by
  have h0 : SessionInv (fun _ _ _ => []) [] ⟨(casInit fs (ascii ".")).2, .idle⟩ := h.sessionInv
  obtain ⟨hi, hcache, -, hrecords⟩ := h0.tree
  refine ⟨hi.ok, hcache, fun hash => ?_, fun key hk => ?_⟩
  · by_contra hn
    obtain ⟨n, hn⟩ := Option.ne_none_iff_exists'.mp hn
    obtain ⟨data, ⟨e, he, -⟩, -⟩ := hi.object hn
    cases he
  · by_contra hn
    obtain ⟨c, hc, -⟩ := hrecords key hk hn
    cases hc

/-- The tree when the task was run. -/
structure PlainRun (fs : FS) : Prop where
  store : StoreOk fs
  cache : fs.node (cacheDir fs.cwd) = some .dir
  object : ∀ h, fs.node (objectPath fs.cwd h) = none
  record : fs.node (recordPath fs.cwd (blobHash plainText)) = some (.file plainRecord)
  others : ∀ key, IsHash key → key ≠ blobHash plainText → fs.node (recordPath fs.cwd key) = none

theorem EmptyStore.plain_run (h : EmptyStore fs) : ∃ e,
    executeTask idleSystem fs (hashedTask fs plainTask) = .ok e ∧ e.ok = true ∧
      e.task.status = .success ∧ e.task.resultHash = some (blobHash []) ∧ PlainRun e.fs := by
  have hmiss := h.record _ (isHash_blobHash plainText)
  refine ⟨_, plainTask_run h.store h.cache hmiss, rfl, rfl, rfl, ?_, ?_, ?_, ?_, ?_⟩
  · exact h.store.set_record (by rw [hmiss]; simp) plainRecord
  · exact (FS.set_node_ne _ _ (cacheDir_ne_recordPath _ _)).trans h.cache
  · exact fun hash => (FS.set_node_ne _ _ (recordPath_ne_objectPath _ _ _).symm).trans (h.object hash)
  · exact FS.set_node_self ..
  · exact fun key hk hne => (FS.set_node_ne _ _ fun he => hne (recordPath_inj he)).trans (h.record key hk)

/-! ## 6. Histories -/

/-- Equal values give one key. -/
theorem SameValues.keyAt_eq {c : Call} (h : SameValues c fs task)
    (hc : ∀ p ∈ c.task.inputs, c.fs.read p ≠ none) (ht : ∀ p ∈ task.inputs, fs.read p ≠ none) :
    keyAt fs task = keyAt c.fs c.task := by
  have hhash : ∀ (fs : FS) (inputs : List Bytes), (∀ p ∈ inputs, fs.read p ≠ none) →
      inputs.map (hashAt fs) = (inputs.map fun p => (fs.read p).getD []).map blobHash := by
    intro fs inputs hr
    rw [List.map_map]
    refine List.map_congr_left fun p hp => ?_
    obtain ⟨data, hd⟩ := Option.ne_none_iff_exists'.mp (hr p hp)
    rw [hashAt, Function.comp_apply, hd]
    rfl
  have hperm : (c.task.inputs.map (hashAt c.fs)).Perm (task.inputs.map (hashAt fs)) := by
    rw [hhash _ _ hc, hhash _ _ ht]
    exact h.contents.map blobHash
  have hcmd : c.task.cmd.getD [] = task.cmd.getD [] := h.cmd
  rw [keyAt, keyAt, textAt, textAt, taskText_eq (List.length_map _), taskText_eq (List.length_map _),
    sortStrings_eq_iff.mpr hperm, hcmd, depsText, depsText, h.deps]

theorem serialInv {fs₀ : FS} (h : NoStore fs₀) {s : Session}
    (hrun : Run OutsideStep ⟨(casInit fs₀ (ascii ".")).2, .idle⟩ tr s) : SerialInv tr s := by
  have h0 : SessionInv (fun _ _ _ => []) [] ⟨(casInit fs₀ (ascii ".")).2, .idle⟩ := h.sessionInv
  have hstart : SerialInv [] ⟨(casInit fs₀ (ascii ".")).2, .idle⟩ :=
    ⟨h0.tree.store.ok, h0.tree.cache, trivial, fun c hc => by cases hc⟩
  exact hrun.inv hstart fun _ _ _ _ _ hi hs => hi.step hs

/-- **No needless run.**  In every history of runs whose outputs lie outside `.reprovm`: a call with
the values of an earlier one that succeeded takes over its result. -/
theorem no_needless_run {fs₀ : FS} (h : NoStore fs₀) {tasks : TaskList} {t : TaskPtr}
    {rest : List TaskPtr} (hrun : Run OutsideStep ⟨(casInit fs₀ (ascii ".")).2, .idle⟩ tr
      ⟨fs, .loop tasks (t :: rest)⟩) {task₁ : Task} (htask : tasks[t]? = some task)
    (hhash : ensureTaskHash fs task = .ok (true, task₁, fs₁)) {c : Call} (hc : .call c ∈ tr)
    (hs : c.status = .success) (hsame : SameValues c fs₁ task) (sys : System) :
    TakesOver sys fs₁ task₁ c := by
  have hi := serialInv h hrun
  obtain ⟨hfresh, -⟩ := hi.phase.2 t List.mem_cons_self task htask
  obtain ⟨-, hh, rfl⟩ | ⟨h, -⟩ := ensureTaskHash_cases hi.store hfresh.taskHash hhash
  · have hkept := (hi.kept c hc hs).grow hh.stores.keepsRecords.keepsInside
    obtain ⟨content, r, hnode, hr, hres⟩ := hkept.record
    have hkey := hsame.keyAt_eq hkept.inputs hh.read_inputs
    have hread : fs₁.read (metaPath (keyAt fs₁ task)) = some content := by
      rw [read_metaPath (isHash_keyAt fs₁ task), hkey, hnode]
    exact ⟨_, executeTask_hit hread hr, rfl, hres.symm⟩
  · cases h

theorem no_needless_run_plain : ∃ (tr : List Event) (fs : FS) (c : Call),
    Run OutsideStep ⟨(casInit workDir (ascii ".")).2, .idle⟩ tr ⟨fs, .loop [plainTask] [0]⟩ ∧
      .call c ∈ tr ∧ c.status = .success ∧
      TakesOver idleSystem fs (hashedTask fs plainTask) c := by
  have h0 := workDir_noStore.emptyStore
  obtain ⟨e, hexec, hok, hs, -, h1⟩ := h0.plain_run
  obtain ⟨T, hT⟩ : ∃ T, (casInit workDir (ascii ".")).2 = T := ⟨_, rfl⟩
  rw [hT] at h0 hexec ⊢
  have hstart : OutsideStep ⟨T, .idle⟩ .other _ := ⟨.start plan_plain.1, trivial⟩
  have hagain : OutsideStep ⟨e.fs, .idle⟩ .other _ := ⟨.start plan_plain.1, trivial⟩
  rw [casInit_again h0.store h0.cache, plan_plain.2] at hstart
  rw [casInit_again h1.store h1.cache, plan_plain.2] at hagain
  have hcall : OutsideStep ⟨T, .loop [plainTask] [0]⟩ (.call ⟨plainTask, T, e⟩) _ :=
    ⟨.call rfl (plainTask_hashed T) (.refl _) hexec, fun _ h => by cases h⟩
  rw [if_pos hok] at hcall
  have hrun := (((Run.single hstart).snoc hcall).snoc ⟨.finish .., trivial⟩).snoc hagain
  refine ⟨_, e.fs, ⟨plainTask, T, e⟩, hrun, by simp, hs, ?_⟩
  subst hT
  exact no_needless_run workDir_noStore hrun rfl (plainTask_hashed e.fs)
    (c := ⟨plainTask, (casInit workDir (ascii ".")).2, e⟩) (by simp) hs ⟨rfl, .refl _, rfl⟩
    idleSystem

/-! ## 7. An output in `.reprovm` -/

/-- **A restore over a record.**  Of a task with the object `h` and the record of `key` as outputs,
whose own record has the blob `h` for both. -/
theorem restoreAll_record (hready : StoreReady fs) {h key data : Bytes} (hh : IsHash h) (hk : IsHash key)
    (hdir : fs.node (objectDir fs.cwd h) = some .dir)
    (hobj : fs.node (objectPath fs.cwd h) = some (.file data))
    (hcache : fs.node (cacheDir fs.cwd) = some .dir)
    (hd : fs.node (recordPath fs.cwd key) ≠ some .dir) :
    restoreAll fs [objectFile h, metaPath key] [(objectFile h, h), (metaPath key, h)] =
      (fs.set (objectPath fs.cwd h) (some (.file []))).set (recordPath fs.cwd key)
        (some (.file [])) := by
  have hne := objectFile_ne_metaPath hh hk
  have hready₁ := hready.set_object h []
  have hfirst := casRestoreBlobToFile_self hready hh hdir hobj
  generalize hfs₁ : fs.set (objectPath fs.cwd h) (some (.file [])) = fs₁ at *
  have hcwd : fs₁.cwd = fs.cwd := by rw [← hfs₁, FS.set_cwd]
  have hnode : ∀ p, p ≠ objectPath fs.cwd h → fs₁.node p = fs.node p := fun p hp => by
    rw [← hfs₁, FS.set_node_ne _ _ hp]
  have hdir₁ : fs₁.node (objectDir fs₁.cwd h) = some .dir := by
    rw [hcwd, hnode _ (by simp [objectPath]), hdir]
  have hobj₁ : fs₁.node (objectPath fs₁.cwd h) = some (.file []) := by
    rw [hcwd, ← hfs₁, FS.set_node_self]
  have hcache₁ : fs₁.node (cacheDir fs₁.cwd) = some .dir := by
    rw [hcwd, hnode _ ?_, hcache]
    rintro he
    exact not_objects_recordPath fs.cwd key (by
      rw [recordPath, he]
      exact (objects_objectPath ..).trans (List.prefix_append ..))
  have hd₁ : fs₁.node (recordPath fs₁.cwd key) ≠ some .dir := by
    rwa [hcwd, hnode _ (recordPath_ne_objectPath _ _ _)]
  have hsecond := casRestoreBlobToFile_object hready₁ hh hdir₁ hobj₁
    (writable_metaPath hk hcache₁ hd₁) (by
      rw [resolve_metaPath hk]
      exact (recordPath_ne_objectPath _ _ _))
  simp only [restoreAll, restoreOutput, List.foldl_cons, List.foldl_nil, if_true, if_neg hne,
    if_neg hne.symm, hfirst, hsecond, resolve_metaPath hk, hcwd]

/-- What a task records that has the object and the record itself, of which `data` is the text,
as outputs. -/
def overRecord (key data : Bytes) : Record where
  resultHash := blobHash (joinStrings (sortStrings [[], blobHash data]) (ascii ","))
  outputs := [(objectFile (blobHash data), blobHash data), (metaPath key, blobHash data)]

/-- When the outputs are hashed the first is not there. -/
theorem computeResultHash_over (hi : StoreOk fs) {key data : Bytes} (hk : IsHash key)
    (hrec : fs.node (recordPath fs.cwd key) = some (.file data))
    (hobj : fs.node (objectPath fs.cwd (blobHash data)) = none)
    (houts : task.outputs = [objectFile (blobHash data), metaPath key]) :
    computeResultHash fs task =
      .ok ({ task with resultHash := some (overRecord key data).resultHash },
        fs.addObject (blobHash data) data) := by
  have hh := isHash_blobHash data
  have hread : fs.read (metaPath key) = some data := by rw [read_metaPath hk, hrec]
  have hnew : fs.fileExists (objectFile (blobHash data)) = false := by
    rw [fileExists_objectFile hh, hobj]
    rfl
  have hold : fs.fileExists (metaPath key) = true := by
    rw [fileExists_iff, hread]
    rfl
  have hstore : storeOutputs fs [objectFile (blobHash data), metaPath key] =
      ([[], blobHash data], fs.addObject (blobHash data) data) := by
    simp only [storeOutputs, hnew, hold, Bool.false_eq_true, if_false, if_true,
      hi.casStoreBlobFromFile, hread, Option.getD_some]
  have hperm := sortStrings_perm [[], blobHash data]
  have hshort : ∀ x ∈ sortStrings [[], blobHash data], x.length ≤ 64 := by
    intro x hx
    rcases List.mem_cons.mp (hperm.mem_iff.mp hx) with rfl | hx
    · exact Nat.zero_le _
    · rw [List.mem_singleton.mp hx, hh.length]
  have hlen := joinStrings_length_le hshort
  rw [hperm.length_eq] at hlen
  have hroom := Nat.lt_of_le_of_lt hlen (show 65 * 2 - 1 < 4096 by decide)
  rw [computeResultHash, houts, hstore, overRecord]
  dsimp only
  rw [if_pos hroom]

/-- When the record is written it is. -/
theorem writeTaskRecord_over (hi : StoreOk fs) (hcache : fs.node (cacheDir fs.cwd) = some .dir)
    {key own data : Bytes} (hk : IsHash key) (hown : IsHash own)
    (hrec : fs.node (recordPath fs.cwd key) = some (.file data))
    (hobj : fs.node (objectPath fs.cwd (blobHash data)) = some (.file data))
    (hmiss : fs.node (recordPath fs.cwd own) = none)
    (houts : task.outputs = [objectFile (blobHash data), metaPath key])
    (hkey : task.taskHash = some own)
    (hres : task.resultHash = some (overRecord key data).resultHash) :
    writeTaskRecord fs task =
      (true, fs.set (recordPath fs.cwd own) (some (.file (recordText own (overRecord key data))))) := by
  have hh := isHash_blobHash data
  have hin : InStore fs data := by
    rw [InStore, hobj]
    simp
  have hobject : fs.read (objectFile (blobHash data)) = some data := by
    rw [FS.read, lookup_objectFile hh, hobj]
  have hrecord : fs.read (metaPath key) = some data := by rw [read_metaPath hk, hrec]
  have hentries : outputEntries fs [objectFile (blobHash data), metaPath key] =
      (overRecord key data).outputs := by
    simp only [outputEntries, List.filterMap_cons, List.filterMap_nil, hobject, hrecord,
      Option.map_some, overRecord]
  have hall : ∀ out ∈ [objectFile (blobHash data), metaPath key],
      Hashed fs out ∧ resolve fs.cwd out ≠ recordPath fs.cwd own := by
    intro out hout
    simp only [List.mem_cons, List.not_mem_nil, or_false] at hout
    rcases hout with rfl | rfl
    · refine ⟨⟨data, hobject, hin⟩, ?_⟩
      rw [resolve_object hh]
      exact (recordPath_ne_objectPath _ _ _).symm
    · refine ⟨⟨data, hrecord, hin⟩, ?_⟩
      rw [resolve_metaPath hk]
      intro he
      rw [he, hmiss] at hrec
      cases hrec
  have hd : fs.node (recordPath fs.cwd own) ≠ some .dir := by simp [hmiss]
  rw [writeTaskRecord, hkey]
  simp only [FS.openWrite_eq, if_pos (writable_metaPath hown hcache hd), resolve_metaPath hown,
    FS.set_cwd, hres, Option.getD_some]
  rw [FS.write_file (FS.set_node_self ..), FS.set_set, FS.write_file (FS.set_node_self ..),
    FS.set_set, houts, writeOutputs_hashed hi hd hall, hentries, recordText]
  simp

/-- The record of the other task and its object. -/
def overTask : Task :=
  { taskNew (ascii "b") with
    cmd := some (ascii "b")
    outputs := [objectFile (blobHash plainRecord), metaPath (blobHash plainText)] }

def overText : Bytes := ascii "cmd=b\ninputs=\ndeps=\n"

def overLines : Bytes :=
  ascii "task b \x7b\ncmd = b\noutputs = " ++ objectFile (blobHash plainRecord) ++ ascii ", " ++
    metaPath (blobHash plainText) ++ ascii "\n\x7d\n"

theorem blobHash_plainText : blobHash plainText =
    ascii "e10dc2b06e8c4632c85f6824edaa6ec75864f5c3208dabd98f8f6f798a7830f4" := by
  rw [blobHash_digest (by decide +kernel), plainText, Bytes.ascii_ofList, Bytes.ascii_ofList]
  decide +kernel

theorem blobHash_plainRecord : blobHash plainRecord =
    ascii "9bfa3b74144b7264ba208abf0d6ea339ae37fe217cd490b2cda2bfc57a65fd19" := by
  rw [plainRecord, blobHash_plainText, blobHash_digest (by decide : ([] : Bytes).length < 2 ^ 61),
    Bytes.ascii_ofList, blobHash_digest (by decide +kernel), Bytes.ascii_ofList]
  decide +kernel

theorem plan_first : plan (fun _ => false) 3 (plainLines ++ overLines) [] = .ok (.sorted [0, 1]) ∧
    parseManifest (plainLines ++ overLines) = [plainTask, overTask] := by
  rw [overTask, overLines, blobHash_plainRecord, blobHash_plainText]
  repeat rw [Bytes.ascii_ofList]
  decide +kernel

theorem plan_second : plan (fun _ => false) 3 (overLines ++ plainLines) [] = .ok (.sorted [0, 1]) ∧
    parseManifest (overLines ++ plainLines) = [overTask, plainTask] := by
  rw [overTask, overLines, blobHash_plainRecord, blobHash_plainText]
  repeat rw [Bytes.ascii_ofList]
  decide +kernel

theorem overText_ne : blobHash overText ≠ blobHash plainText ∧
    blobHash overText ≠ blobHash plainRecord ∧ blobHash plainText ≠ blobHash plainRecord := by
  rw [blobHash_plainRecord, blobHash_plainText, blobHash_digest (by decide +kernel)]
  repeat rw [Bytes.ascii_ofList]
  decide +kernel

theorem collisionFree_of_nodup {l : List Bytes} (h : (l.map blobHash).Nodup) :
    CollisionFree {x | x ∈ l} := fun _ hx _ hy he =>
  List.inj_on_of_nodup_map h hx hy (congrArg hexEncode he)

theorem overData_collisionFree : CollisionFree {plainText, overText, plainRecord} := by
  obtain ⟨h1, h2, h3⟩ := overText_ne
  have hnd : (([plainText, overText, plainRecord] : List Bytes).map blobHash).Nodup := by
    simp [h1.symm, h2, h3]
  refine (collisionFree_of_nodup hnd).mono ?_
  rintro x (rfl | rfl | rfl) <;> simp

theorem textAt_overTask (fs : FS) : textAt fs overTask = overText := by
  show taskText { taskNew (ascii "b") with cmd := some (ascii "b") } [] = overText
  decide

theorem overTask_hashed (fs : FS) :
    ensureTaskHash fs overTask = .ok (true, hashedTask fs overTask, fs) :=
  ensureTaskHash_noInputs rfl rfl (by rw [textAt_overTask]; decide)

theorem keyAt_overTask (fs : FS) : keyAt fs overTask = blobHash overText := by
  rw [keyAt, textAt_overTask]

/-- The second task is run. -/
theorem overTask_run (hi : StoreOk fs) (hcache : fs.node (cacheDir fs.cwd) = some .dir)
    (hrec : fs.node (recordPath fs.cwd (blobHash plainText)) = some (.file plainRecord))
    (hobj : fs.node (objectPath fs.cwd (blobHash plainRecord)) = none)
    (hmiss : fs.node (recordPath fs.cwd (blobHash overText)) = none) :
    executeTask idleSystem fs (hashedTask fs overTask) =
      .ok ⟨true, { hashedTask fs overTask with
          resultHash := some (overRecord (blobHash plainText) plainRecord).resultHash,
          status := .success },
        (fs.addObject (blobHash plainRecord) plainRecord).set
          (recordPath fs.cwd (blobHash overText)) (some (.file (recordText (blobHash overText)
            (overRecord (blobHash plainText) plainRecord)))), true⟩ := by
  have hk := isHash_blobHash overText
  have hread : fs.read (metaPath (keyAt fs overTask)) = none := by
    rwa [keyAt_overTask, read_metaPath_eq_none hk]
  have hstores := hi.stores_addObject (blobHash plainRecord) plainRecord
  have hobj₁ := FS.addObject_node_object hobj plainRecord
  rw [executeTask_miss hread]
  refine runTask_success rfl (computeResultHash_over hi (isHash_blobHash plainText) hrec hobj rfl) ?_
  rw [writeTaskRecord_over (hi.addObject plainRecord) (by rw [hstores.cwd]; exact hstores.keep _ _ hcache)
    (isHash_blobHash plainText) hk ((hstores.node_record _).trans hrec) (by rwa [hstores.cwd])
    ((hstores.node_record _).trans hmiss) rfl (congrArg some (keyAt_overTask fs)) rfl, hstores.cwd]

theorem overNames : PlainName (objectFile (blobHash plainRecord)) ∧
    PlainName (metaPath (blobHash plainText)) := by
  rw [blobHash_plainRecord, blobHash_plainText, Bytes.ascii_ofList, Bytes.ascii_ofList]
  exact ⟨⟨by decide, by decide, by decide, by decide⟩, ⟨by decide, by decide, by decide, by decide⟩⟩

/-- The tree after the first run. -/
structure BothRun (fs : FS) : Prop where
  store : StoreOk fs
  cache : fs.node (cacheDir fs.cwd) = some .dir
  object : fs.node (objectPath fs.cwd (blobHash plainRecord)) = some (.file plainRecord)
  record : fs.node (recordPath fs.cwd (blobHash plainText)) = some (.file plainRecord)
  own : fs.node (recordPath fs.cwd (blobHash overText)) =
    some (.file (recordText (blobHash overText) (overRecord (blobHash plainText) plainRecord)))

/-- The second task is skipped, and the record of the first is empty afterwards. -/
theorem BothRun.skip (h : BothRun fs) : ∃ e,
    executeTask idleSystem fs (hashedTask fs overTask) = .ok e ∧ e.ok = true ∧ e.ran = false ∧
      e.fs.read (metaPath (blobHash plainText)) = some [] := by
  have hk := isHash_blobHash plainText
  have hh := isHash_blobHash plainRecord
  obtain ⟨-, -, -, -, hdir⟩ := h.store.object h.object
  have hread : fs.read (metaPath (keyAt fs overTask)) =
      some (recordText (blobHash overText) (overRecord (blobHash plainText) plainRecord)) := by
    rw [keyAt_overTask, read_metaPath (isHash_blobHash overText), h.own]
  have hplain : ∀ entry ∈ (overRecord (blobHash plainText) plainRecord).outputs,
      PlainName entry.1 ∧ IsHash entry.2 := by
    intro entry he
    simp only [overRecord, List.mem_cons, List.not_mem_nil, or_false] at he
    rcases he with rfl | rfl
    · exact ⟨overNames.1, hh⟩
    · exact ⟨overNames.2, hh⟩
  have hfew : (overRecord (blobHash plainText) plainRecord).outputs.length ≤ 64 := by
    show 2 ≤ 64
    decide
  have hback := readRecord_recordText (isHash_blobHash overText) (isHash_blobHash _) hfew hplain
  have hskip : executeTask idleSystem fs (hashedTask fs overTask) = _ := executeTask_hit hread hback
  have hrestore : restoreAll fs overTask.outputs
      (overRecord (blobHash plainText) plainRecord).outputs = _ :=
    restoreAll_record h.store.ready hh hk hdir h.object h.cache (by simp [h.record])
  refine ⟨_, hskip, rfl, rfl, ?_⟩
  dsimp only
  rw [hrestore, read_metaPath hk, FS.set_cwd, FS.set_cwd, FS.set_node_self]

theorem recordPath_over_ne (cwd : Path) :
    recordPath cwd (blobHash overText) ≠ recordPath cwd (blobHash plainText) :=
  fun he => overText_ne.1 (recordPath_inj he)

theorem PlainRun.over_run (h : PlainRun fs) : ∃ e,
    executeTask idleSystem fs (hashedTask fs overTask) = .ok e ∧ e.ok = true ∧ BothRun e.fs := by
  have hstores := h.store.stores_addObject (blobHash plainRecord) plainRecord
  have hi₁ : StoreOk (fs.addObject (blobHash plainRecord) plainRecord) := h.store.addObject _
  have hown := h.others _ (isHash_blobHash overText) overText_ne.1
  have hmiss := (hstores.node_record _).trans hown
  refine ⟨_, overTask_run h.store h.cache h.record (h.object _) hown, rfl, ?_⟩
  rw [← hstores.cwd]
  constructor
  · exact hi₁.set_record (by rw [hmiss]; simp) _
  · rw [FS.set_cwd, FS.set_node_ne _ _ (cacheDir_ne_recordPath _ _), hstores.cwd]
    exact hstores.keep _ _ h.cache
  · rw [FS.set_cwd, FS.set_node_ne _ _ (recordPath_ne_objectPath _ _ _).symm, hstores.cwd]
    exact FS.addObject_node_object (h.object _) plainRecord
  · rw [FS.set_cwd, FS.set_node_ne _ _ (recordPath_over_ne _).symm, hstores.node_record]
    exact h.record
  · exact FS.set_node_self ..

/-- What the outputs of the second task hold, and its text. -/
theorem BothRun.data (h : BothRun fs) : ∀ out ∈ overTask.outputs, fs.read out = some plainRecord := by
  intro out hout
  simp only [overTask, List.mem_cons, List.not_mem_nil, or_false] at hout
  rcases hout with rfl | rfl
  · rw [FS.read, lookup_objectFile (isHash_blobHash _), h.object]
  · rw [read_metaPath (isHash_blobHash _), h.record]

/-- What the calls hash. -/
theorem call_data {c : Call} {S : Set Bytes} (hin : c.task.inputs = []) (htext : textAt c.fs c.task ∈ S)
    (hout : c.exec.ran = true → ∀ out ∈ c.task.outputs, ∀ d, c.exec.fs.read out = some d → d ∈ S) :
    c.data ⊆ S := by
  rintro d (⟨p, hp, -⟩ | rfl | ⟨hran, out, hmem, hr⟩)
  · rw [hin] at hp
    cases hp
  · exact htext
  · exact hout hran out hmem d hr

/-- **A record that is lost.**  The first run runs both tasks.  The second begins with the other
one, and then a call with the values of the first call takes over an empty result. -/
theorem record_lost : ∃ (tr : List Event) (fs fs₁ : FS) (tasks : TaskList) (t : TaskPtr)
    (rest : List TaskPtr) (task task₁ : Task) (c : Call),
    Run SerialStep ⟨(casInit workDir (ascii ".")).2, .idle⟩ tr ⟨fs, .loop tasks (t :: rest)⟩ ∧
      CollisionFree (involved tr) ∧ tasks[t]? = some task ∧
      ensureTaskHash fs task = .ok (true, task₁, fs₁) ∧ .call c ∈ tr ∧ c.status = .success ∧
      SameValues c fs₁ task ∧ ¬ TakesOver idleSystem fs₁ task₁ c := by
  have h0 := workDir_noStore.emptyStore
  generalize (casInit workDir (ascii ".")).2 = T at *
  obtain ⟨e₁, hexec₁, hok₁, hs₁, hres₁, h1⟩ := h0.plain_run
  obtain ⟨e₂, hexec₂, hok₂, h2⟩ := h1.over_run
  obtain ⟨e₃, hexec₃, hok₃, hran₃, hlost⟩ := h2.skip
  have hstart : SerialStep ⟨T, .idle⟩ .other _ := .start plan_first.1
  have hrun := Run.single hstart
  rw [casInit_again h0.store h0.cache, plan_first.2] at hrun
  have hcall₁ : SerialStep ⟨T, .loop [plainTask, overTask] [0, 1]⟩ (.call ⟨plainTask, T, e₁⟩) _ :=
    .call rfl (plainTask_hashed T) (.refl _) hexec₁
  rw [if_pos hok₁] at hcall₁
  have hcall₂ : SerialStep ⟨e₁.fs, .loop [e₁.task, overTask] [1]⟩ (.call ⟨overTask, e₁.fs, e₂⟩) _ :=
    .call rfl (overTask_hashed _) (.refl _) hexec₂
  rw [if_pos hok₂] at hcall₂
  have hrun₁ := ((hrun.snoc hcall₁).snoc hcall₂).snoc (.finish ..)
  have hrun₂ := hrun₁.snoc (.start plan_second.1)
  rw [casInit_again h2.store h2.cache, plan_second.2] at hrun₂
  have hcall₃ : SerialStep ⟨e₂.fs, .loop [overTask, plainTask] [0, 1]⟩ (.call ⟨overTask, e₂.fs, e₃⟩) _ :=
    .call rfl (overTask_hashed _) (.refl _) hexec₃
  rw [if_pos hok₃] at hcall₃
  have hrun₃ := hrun₂.snoc hcall₃
  refine ⟨_, _, _, _, _, _, plainTask, _, ⟨plainTask, T, e₁⟩, hrun₃, ?_, rfl, plainTask_hashed _,
    by simp, hs₁, ⟨rfl, .refl _, rfl⟩, ?_⟩
  · refine overData_collisionFree.mono (involved_subset fun ev hev => ?_)
    simp only [List.cons_append, List.nil_append, List.mem_cons, List.not_mem_nil, or_false] at hev
    rcases hev with rfl | rfl | rfl | rfl | rfl | rfl
    · exact Set.empty_subset _
    · refine call_data rfl ?_ fun _ out hout => by cases hout
      rw [textAt_plainTask]
      exact .inl rfl
    · refine call_data rfl ?_ fun _ out hout d hd => ?_
      · rw [textAt_overTask]
        exact .inr (.inl rfl)
      · rw [h2.data out hout] at hd
        exact .inr (.inr (Option.some.inj hd).symm)
    · exact Set.empty_subset _
    · exact Set.empty_subset _
    · refine call_data rfl ?_ fun hran => ?_
      · rw [textAt_overTask]
        exact .inr (.inl rfl)
      · rw [hran₃] at hran
        cases hran
  · rintro ⟨e, hexec, -, hres⟩
    have hread : e₃.fs.read (metaPath (keyAt e₃.fs plainTask)) = some [] := by
      rw [keyAt_plainTask, hlost]
    rw [executeTask_hit hread readRecord_nil] at hexec
    cases hexec
    rw [hres₁] at hres
    have hlen := (isHash_blobHash []).length
    rw [← Option.some.inj hres] at hlen
    cases hlen

end ReproVM
