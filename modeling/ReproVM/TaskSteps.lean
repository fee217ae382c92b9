/-
# The parts of running a task

Hashing it, looking it up, running its command and writing its record, each as an equation in a
tree whose store is in order: what becomes of the task and of the tree, as far as the inputs, the
outputs and the record of the key say.  All that a task does to the tree is of one kind
(`Grows`): in `.reprovm` it only adds, outside it changes files at the places of its outputs.
-/
import ReproVM.CacheSteps

namespace ReproVM

open Bytes (ascii)

variable {fs fs' : FS} {task : Task}

/-! ## 1. Keys and results -/

/-- The text that gives the task its hash, with the inputs as they are in the tree. -/
def textAt (fs : FS) (task : Task) : Bytes := taskText task (task.inputs.map (hashAt fs))

def keyAt (fs : FS) (task : Task) : Bytes := blobHash (textAt fs task)

/-- The text that gives the task its result hash. -/
def resultText (fs : FS) (task : Task) : Bytes :=
  joinStrings (sortStrings (task.outputs.map (hashAt fs))) (ascii ",")

def resultAt (fs : FS) (task : Task) : Bytes := blobHash (resultText fs task)

theorem isHash_keyAt (fs : FS) (task : Task) : IsHash (keyAt fs task) := isHash_blobHash _

/-- The text depends on the declaration and on what the inputs hash to. -/
theorem textAt_congr {task' : Task} (hd : task'.decl = task.decl)
    (h : ∀ p ∈ task.inputs, hashAt fs' p = hashAt fs p) : textAt fs' task' = textAt fs task := by
  obtain ⟨-, hcmd, hinputs, -, hdeps⟩ := Task.decl_eq_iff.mp hd
  rw [textAt, textAt, taskText, taskText, hcmd, hinputs, hdeps, List.map_congr_left h]

/-! ## 2. The task hash -/

/-- What storing some of the inputs did to the tree. -/
structure StoresInputs (fs : FS) (task : Task) (fs₁ : FS) : Prop where
  stores : Stores fs fs₁
  ok : StoreOk fs₁
  inv : ∀ S, StoreInv S fs → (∀ p ∈ task.inputs, ∀ data, fs₁.read p = some data → data ∈ S) →
    StoreInv S fs₁

/-- The tree `fs₁` in which the task was hashed. -/
structure HashedIn (fs : FS) (task : Task) (fs₁ : FS) : Prop extends StoresInputs fs task fs₁ where
  inputs : ∀ p ∈ task.inputs, Hashed fs₁ p
  length : (textAt fs₁ task).length < 4096

/-- The task with its key. -/
def hashedTask (fs₁ : FS) (task : Task) : Task := { task with taskHash := some (keyAt fs₁ task) }

/-- **Hashing a task** that has no hash yet: the task gets its key, and its inputs are in the
store, or one of them cannot be read. -/
theorem ensureTaskHash_cases (hi : StoreOk fs) (hnone : task.taskHash = none) {ok : Bool}
    {task' : Task} (h : ensureTaskHash fs task = .ok (ok, task', fs')) :
    ok = true ∧ HashedIn fs task fs' ∧ task' = hashedTask fs' task ∨
      ok = false ∧ StoresInputs fs task fs' ∧ task' = task := by
  rw [ensureTaskHash, hnone] at h
  simp only [computeTaskHash] at h
  obtain ⟨hs1, hs2, hs3⟩ := storeInputs_stores hi task.inputs
  rcases hrun : storeInputs fs task.inputs with ⟨_ | hs, fs₁⟩ <;> rw [hrun] at h hs1 hs2 hs3
  · cases h
    exact .inr ⟨rfl, ⟨hs1, hs2, hs3⟩, rfl⟩
  · obtain ⟨rfl, hall⟩ := storeInputs_some hi hrun
    dsimp only at h
    split at h
    · rename_i hlen
      cases h
      exact .inl ⟨rfl, ⟨⟨hs1, hs2, hs3⟩, hall, hlen⟩, rfl⟩
    · cases h

/-- Inputs that were all stored give the hash, if its text fits. -/
theorem ensureTaskHash_stored (hi : StoreOk fs) (hnone : task.taskHash = none) {hs : List Bytes}
    (hrun : storeInputs fs task.inputs = (some hs, fs')) (hlen : (textAt fs' task).length < 4096) :
    ensureTaskHash fs task = .ok (true, hashedTask fs' task, fs') := by
  obtain ⟨rfl, -⟩ := storeInputs_some hi hrun
  rw [ensureTaskHash, hnone]
  simp only [computeTaskHash, hrun]
  exact if_pos hlen

/-- Hashing a task whose inputs are in the store leaves the tree as it is. -/
theorem ensureTaskHash_hashed (hi : StoreOk fs) (hnone : task.taskHash = none)
    (hall : ∀ p ∈ task.inputs, Hashed fs p) (hlen : (textAt fs task).length < 4096) :
    ensureTaskHash fs task = .ok (true, hashedTask fs task, fs) :=
  ensureTaskHash_stored hi hnone (storeInputs_hashed hi hall) hlen

/-- A task without inputs is hashed, whatever the tree. -/
theorem ensureTaskHash_noInputs (hin : task.inputs = []) (hnone : task.taskHash = none)
    (hlen : (textAt fs task).length < 4096) :
    ensureTaskHash fs task = .ok (true, hashedTask fs task, fs) := by
  have htext : textAt fs task = taskText task [] := by rw [textAt, hin, List.map_nil]
  rw [ensureTaskHash, hnone]
  simp only [computeTaskHash, hin, storeInputs]
  rw [if_pos (htext ▸ hlen), hashedTask, keyAt, htext, ← hin]

/-! ## 3. The lookup -/

/-- What is read as the record of a key. -/
theorem read_metaPath {key : Bytes} (hk : IsHash key) (fs : FS) :
    fs.read (metaPath key) =
      match fs.node (recordPath fs.cwd key) with
      | none => none
      | some (.file d) => some d
      | some .dir => some [] := by
  rcases h : fs.node (recordPath fs.cwd key) with _ | _ | _ <;>
    simp [FS.read, lookup_metaPath hk, h]

theorem read_metaPath_eq_none {key : Bytes} (hk : IsHash key) (fs : FS) :
    fs.read (metaPath key) = none ↔ fs.node (recordPath fs.cwd key) = none := by
  rw [read_metaPath hk]
  rcases fs.node (recordPath fs.cwd key) with _ | _ | _ <;> simp

theorem tryLoadTaskRecord_eq (fs : FS) (task : Task) {key : Bytes} (hkey : task.taskHash = some key) :
    tryLoadTaskRecord fs task =
      match fs.read (metaPath key) with
      | none => .ok (0, task, fs)
      | some content =>
        match readRecord content with
        | .error e => .error e
        | .ok r =>
          .ok (1, { task with resultHash := some r.resultHash, status := .skipped },
            r.outputs.foldl (fun fs entry => restoreOutput fs task.outputs entry) fs) := by
  rw [tryLoadTaskRecord, hkey]
  simp only [fileExists_iff]
  cases fs.read (metaPath key) <;> rfl

/-- An empty record is a hit. -/
theorem tryLoadTaskRecord_empty {key : Bytes} (hkey : task.taskHash = some key) (hread : fs.read (metaPath key) = some []) :
    tryLoadTaskRecord fs task = .ok (1, { task with resultHash := some [], status := .skipped }, fs) := by
  rw [tryLoadTaskRecord_eq fs task hkey, hread]
  simp only [readRecord_nil]
  rfl

/-- The restores of a hit. -/
def restoreAll (fs : FS) (outputs : List Bytes) (entries : List (Bytes × Bytes)) : FS :=
  entries.foldl (fun fs entry => restoreOutput fs outputs entry) fs

/-- Every blob that the reader finds named in a record is in the store. -/
def CacheIntact (fs : FS) : Prop :=
  ∀ key content r, IsHash key → fs.read (metaPath key) = some content →
    readRecord content = .ok r → ∀ entry ∈ r.outputs, Intact fs entry.2

/-! ## 4. The command and the record -/

/-- **The result hash**, with the outputs stored. -/
theorem computeResultHash_eq (hi : StoreOk fs) (ho : OutsideAll fs.cwd task.outputs) :
    computeResultHash fs task =
      if (resultText fs task).length < 4096 then
        .ok ({ task with resultHash := some (resultAt fs task) }, (storeOutputs fs task.outputs).2)
      else .error .bufferOverflow := by
  rw [computeResultHash]
  obtain ⟨h1, -⟩ := storeOutputs_eq hi ho
  rcases hrun : storeOutputs fs task.outputs with ⟨hashes, fs₁⟩
  rw [hrun] at h1
  obtain rfl := h1
  rfl

/-- The entries do not change while outputs are stored. -/
theorem Stores.outputEntries_eq (h : Stores fs fs') {outputs : List Bytes}
    (ho : OutsideAll fs.cwd outputs) : outputEntries fs' outputs = outputEntries fs outputs := by
  refine List.filterMap_congr fun out hout => ?_
  rw [h.read_outside (ho out hout)]

theorem Stores.node_record (h : Stores fs fs') (key : Bytes) :
    fs'.node (recordPath fs'.cwd key) = fs.node (recordPath fs.cwd key) := by
  rw [h.cwd]
  exact h.elsewhere _ (not_objects_recordPath fs.cwd key)

/-- Whether a record can be written does not change while outputs are stored. -/
theorem Stores.writable_record (h : Stores fs fs') {key : Bytes} (hk : IsHash key) :
    fs'.Writable (metaPath key) ↔ fs.Writable (metaPath key) := by
  have hdir : (recordPath fs.cwd key).dropLast = cacheDir fs.cwd := List.dropLast_concat
  have hparent : fs'.node (cacheDir fs.cwd) = fs.node (cacheDir fs.cwd) := by
    refine h.elsewhere _ ?_
    rintro ⟨q, hq⟩
    exact not_objects_recordPath fs.cwd key ⟨q ++ [key ++ ascii ".meta"], by
      rw [← List.append_assoc, hq, recordPath]⟩
  have hnode := h.node_record key
  rw [h.cwd] at hnode
  refine FS.writable_congr h.cwd ?_ ?_ <;> rw [resolve_metaPath hk]
  · rw [hnode]
  · rw [hdir, hparent]

/-- The tree that the command left, once its outputs are stored. -/
def outputsStored (fs : FS) (task : Task) : FS :=
  storeAll (storeOutputs fs task.outputs).2 task.outputs

/-- The record that is written after the command left the tree `fs`. -/
def recordOf (fs : FS) (task : Task) : Record :=
  ⟨resultAt fs task, outputEntries fs task.outputs⟩

/-- The result and the record depend on what the outputs read. -/
theorem resultText_congr (h : ∀ out ∈ task.outputs, fs'.read out = fs.read out) :
    resultText fs' task = resultText fs task := by
  have hmap : task.outputs.map (hashAt fs') = task.outputs.map (hashAt fs) :=
    List.map_congr_left fun out hout => by rw [hashAt, hashAt, h out hout]
  rw [resultText, resultText, hmap]

theorem recordOf_congr (h : ∀ out ∈ task.outputs, fs'.read out = fs.read out) :
    recordOf fs' task = recordOf fs task := by
  have hentries : outputEntries fs' task.outputs = outputEntries fs task.outputs :=
    List.filterMap_congr fun out hout => by rw [h out hout]
  rw [recordOf, recordOf, resultAt, resultAt, resultText_congr h, hentries]

/-- The tree with the record written as well. -/
def recorded (fs : FS) (task : Task) (key : Bytes) : FS :=
  (outputsStored fs task).set (recordPath fs.cwd key)
    (some (.file (recordText key (recordOf fs task))))

theorem outputsStored_stores (hi : StoreOk fs) (ho : OutsideAll fs.cwd task.outputs) :
    Stores fs (outputsStored fs task) ∧ StoreOk (outputsStored fs task) ∧
      (∀ entry ∈ (recordOf fs task).outputs, Intact (outputsStored fs task) entry.2) ∧
      ∀ S, StoreInv S fs → (∀ out ∈ task.outputs, ∀ data, fs.read out = some data → data ∈ S) →
        StoreInv S (outputsStored fs task) := by
  obtain ⟨-, h1, h2, h3⟩ := storeOutputs_eq hi ho
  have ho' : OutsideAll (storeOutputs fs task.outputs).2.cwd task.outputs := by rwa [h1.cwd]
  obtain ⟨h4, h5, h6, h7⟩ := storeAll_stores h2 ho'
  refine ⟨h1.trans h4, h5, ?_, fun S hS hmem => h7 S (h3 S hS hmem) fun out hout data hd => ?_⟩
  · intro entry he
    rw [recordOf, ← h1.outputEntries_eq ho] at he
    exact h6 entry he
  · exact hmem out hout data ((h1.read_outside (ho out hout)).symm.trans hd)

/-- **The record**, after the result hash. -/
theorem writeTaskRecord_result (hi : StoreOk fs) (ho : OutsideAll fs.cwd task.outputs)
    {key : Bytes} (hk : IsHash key) (hkey : task.taskHash = some key) :
    writeTaskRecord (storeOutputs fs task.outputs).2
        { task with resultHash := some (resultAt fs task) } =
      if fs.Writable (metaPath key) then
        (true, recorded fs task key)
      else (false, (storeOutputs fs task.outputs).2) := by
  obtain ⟨-, h1, h2, -⟩ := storeOutputs_eq hi ho
  have ho' : OutsideAll (storeOutputs fs task.outputs).2.cwd
      { task with resultHash := some (resultAt fs task) }.outputs := by rwa [h1.cwd]
  rw [writeTaskRecord_eq h2 ho' hk hkey rfl]
  simp only [h1.writable_record hk, h1.outputEntries_eq ho, h1.cwd]
  rfl

/-- **Running a task** whose key has no record: the command fails, or the text of the result is
too long for its buffer, or the record cannot be written, or the task succeeds. -/
theorem runTask_eq (task : Task) {sys : System} {ret : Int} (hsys : system sys task.cmd fs = (ret, fs'))
    (hi : StoreOk fs') (ho : OutsideAll fs'.cwd task.outputs) {key : Bytes} (hk : IsHash key)
    (hkey : task.taskHash = some key) :
    runTask sys fs task =
      if ret ≠ 0 then .ok ⟨false, { task with status := .failed }, fs', true⟩
      else if (resultText fs' task).length < 4096 then
        if fs'.Writable (metaPath key) then
          .ok ⟨true, { task with resultHash := some (resultAt fs' task), status := .success },
            recorded fs' task key, true⟩
        else
          .ok ⟨false, { task with resultHash := some (resultAt fs' task), status := .failed },
            (storeOutputs fs' task.outputs).2, true⟩
      else .error .bufferOverflow := by
  rw [runTask, hsys]
  dsimp only
  by_cases hret : ret ≠ 0
  · rw [if_pos hret, if_pos hret]
    rfl
  · rw [if_neg hret, if_neg hret, computeResultHash_eq hi ho]
    by_cases hlen : (resultText fs' task).length < 4096
    · simp only [if_pos hlen, bind, Except.bind, writeTaskRecord_result hi ho hk hkey]
      by_cases hw : fs'.Writable (metaPath key) <;> simp only [hw, if_true, if_false] <;> rfl
    · simp only [if_neg hlen, bind, Except.bind]

/-- A task whose command and record go through. -/
theorem runTask_success {sys : System} {fs₁ fs₂ fs₃ : FS} {task₁ : Task}
    (hsys : system sys task.cmd fs = (0, fs₁))
    (hres : computeResultHash fs₁ task = .ok (task₁, fs₂))
    (hrec : writeTaskRecord fs₂ task₁ = (true, fs₃)) :
    runTask sys fs task = .ok ⟨true, { task₁ with status := .success }, fs₃, true⟩ := by
  rw [runTask, hsys]
  dsimp only [bind, Except.bind]
  rw [if_neg (by simp), hres]
  dsimp only
  rw [hrec]
  rfl

/-! ## 5. What changes and what stays -/

/-- Inside `.reprovm` things are only added; outside, files change at the places `ps`. -/
structure Grows (ps : Set Path) (fs fs' : FS) : Prop where
  cwd : fs'.cwd = fs.cwd
  keep : ∀ p n, Inside fs.cwd p → fs.node p = some n → fs'.node p = some n
  outside : ∀ p, ¬ Inside fs.cwd p → p ∉ ps → fs'.node p = fs.node p
  dir : ∀ p, ¬ Inside fs.cwd p → (fs'.node p = some .dir ↔ fs.node p = some .dir)

/-- The places of the outputs. -/
def Task.places (cwd : Path) (task : Task) : Set Path :=
  {p | ∃ out ∈ task.outputs, resolve cwd out = p}

namespace Grows

variable {ps qs : Set Path}

theorem refl (ps : Set Path) (fs : FS) : Grows ps fs fs :=
  ⟨rfl, fun _ _ _ h => h, fun _ _ _ => rfl, fun _ _ => Iff.rfl⟩

theorem trans {fs₁ fs₂ fs₃ : FS} (h : Grows ps fs₁ fs₂) (h' : Grows ps fs₂ fs₃) :
    Grows ps fs₁ fs₃ where
  cwd := h'.cwd.trans h.cwd
  keep p n hp hn := h'.keep p n (by rwa [h.cwd]) (h.keep p n hp hn)
  outside p hp hps := (h'.outside p (by rwa [h.cwd]) hps).trans (h.outside p hp hps)
  dir p hp := (h'.dir p (by rwa [h.cwd])).trans (h.dir p hp)

theorem mono (hsub : ps ⊆ qs) (h : Grows ps fs fs') : Grows qs fs fs' :=
  ⟨h.cwd, h.keep, fun p hp hq => h.outside p hp fun hps => hq (hsub hps), h.dir⟩

/-- What is outside and was there before is read the same, and so is what was there inside. -/
theorem node_eq (h : Grows ps fs fs') {p : Path} (hp : p ∉ ps) (hn : fs.node p ≠ none) :
    fs'.node p = fs.node p := by
  by_cases hin : Inside fs.cwd p
  · obtain ⟨n, hn⟩ := Option.ne_none_iff_exists'.mp hn
    rw [hn, h.keep p n hin hn]
  · exact h.outside p hin hp

theorem read_eq (h : Grows ps fs fs') {s data : Bytes} (hs : resolve fs.cwd s ∉ ps)
    (hr : fs.read s = some data) : fs'.read s = some data := by
  rw [← hr]
  exact FS.read_congr h.cwd (h.node_eq hs (FS.node_ne_none_of_read hr))

theorem inStore (h : Grows ps fs fs') {data : Bytes} (hin : InStore fs data) : InStore fs' data := by
  obtain ⟨n, hn⟩ := Option.ne_none_iff_exists'.mp hin
  rw [InStore, h.cwd, h.keep _ n (inside_objects (objects_objectPath ..)) hn]
  simp

theorem hashed (h : Grows ps fs fs') {s : Bytes} (hs : resolve fs.cwd s ∉ ps) (hh : Hashed fs s) :
    Hashed fs' s ∧ hashAt fs' s = hashAt fs s := by
  obtain ⟨data, hr, hin⟩ := hh
  have hr' := h.read_eq hs hr
  exact ⟨⟨data, hr', h.inStore hin⟩, by rw [hashAt, hashAt, hr, hr']⟩

theorem intact (h : Grows ps fs fs') {x : Bytes} (hx : Intact fs x) : Intact fs' x := by
  obtain ⟨hash, data, hobj⟩ := hx
  refine ⟨hash, data, ?_⟩
  rw [h.cwd]
  exact h.keep _ _ (inside_objects (objects_objectPath ..)) hobj

theorem blobAt_eq (h : Grows ps fs fs') {x : Bytes} (hx : Intact fs x) :
    blobAt fs' x = blobAt fs x := by
  obtain ⟨-, data, hobj⟩ := hx
  have hobj' := h.keep _ _ (inside_objects (objects_objectPath ..)) hobj
  rw [blobAt, blobAt, h.cwd, hobj, hobj']

/-- A record that is there stays as it is. -/
theorem read_record (h : Grows ps fs fs') {key content : Bytes} (hk : IsHash key)
    (hr : fs.read (metaPath key) = some content) : fs'.read (metaPath key) = some content := by
  have hn := FS.node_ne_none_of_read hr
  rw [resolve_metaPath hk] at hn
  obtain ⟨n, hn⟩ := Option.ne_none_iff_exists'.mp hn
  rw [← hr]
  refine FS.read_congr h.cwd ?_
  rw [resolve_metaPath hk, hn, h.keep _ n (inside_recordPath ..) hn]

/-- Whether an output can be written depends on the directories only. -/
theorem writable_iff (h : Grows ps fs fs') {s : Bytes} (hs : ¬ Inside fs.cwd (resolve fs.cwd s)) :
    fs'.Writable s ↔ fs.Writable s := by
  have hparent : ¬ Inside fs.cwd (resolve fs.cwd s).dropLast := fun hp =>
    hs (List.IsPrefix.trans hp (List.dropLast_prefix _))
  exact FS.writable_congr h.cwd (h.dir _ hs) (h.dir _ hparent)

end Grows

theorem Stores.grows (h : Stores fs fs') (ps : Set Path) : Grows ps fs fs' where
  cwd := h.cwd
  keep p n _ hn := h.keep p n hn
  outside _ hp _ := h.outside hp
  dir p hp := by rw [h.outside hp]

/-- A new record. -/
theorem grows_record {key : Bytes} (hn : fs.node (recordPath fs.cwd key) = none) (content : Bytes)
    (ps : Set Path) : Grows ps fs (fs.set (recordPath fs.cwd key) (some (.file content))) where
  cwd := rfl
  keep p n _ hp := by
    rw [FS.set_node_ne _ _ (by rintro rfl; rw [hn] at hp; cases hp), hp]
  outside p hp _ := by
    rw [FS.set_node_ne _ _ (by rintro rfl; exact hp (inside_recordPath ..))]
  dir p hp := by
    rw [FS.set_node_ne _ _ (by rintro rfl; exact hp (inside_recordPath ..))]

/-! ## 6. Records whose blobs are there -/

namespace CacheIntact

/-- What keeps the records keeps their blobs. -/
theorem congr {ps : Set Path} (hc : CacheIntact fs) (hg : Grows ps fs fs')
    (hrec : ∀ key, fs'.node (recordPath fs.cwd key) = fs.node (recordPath fs.cwd key)) :
    CacheIntact fs' := by
  intro key content r hk hread hr entry he
  rw [read_metaPath hk, hg.cwd, hrec, ← read_metaPath hk] at hread
  exact hg.intact (hc key content r hk hread hr entry he)

theorem stores (hc : CacheIntact fs) (h : Stores fs fs') : CacheIntact fs' :=
  hc.congr (h.grows ∅) fun key => h.elsewhere _ (not_objects_recordPath fs.cwd key)

/-- A new record with blobs that are there. -/
theorem set_record (hc : CacheIntact fs) {key : Bytes} (hn : fs.node (recordPath fs.cwd key) = none)
    (content : Bytes)
    (hnew : ∀ r, readRecord content = .ok r → ∀ entry ∈ r.outputs, Intact fs entry.2) :
    CacheIntact (fs.set (recordPath fs.cwd key) (some (.file content))) := by
  have hg := grows_record hn content ∅
  intro key' content' r hk hread hr entry he
  rw [read_metaPath hk, FS.set_cwd] at hread
  by_cases hkey : key' = key
  · subst hkey
    rw [FS.set_node_self] at hread
    obtain rfl : content = content' := Option.some.inj hread
    exact hg.intact (hnew r hr entry he)
  · rw [FS.set_node_ne _ _ fun h => hkey (recordPath_inj h), ← read_metaPath hk] at hread
    exact hg.intact (hc key' content' r hk hread hr entry he)

end CacheIntact

theorem FilesOnly.cacheIntact (h : FilesOnly fs fs') (hc : CacheIntact fs) : CacheIntact fs' := by
  intro key content r hk hread hr entry he
  rw [read_metaPath hk, h.cwd, h.record, ← read_metaPath hk] at hread
  exact (hc key content r hk hread hr entry he).filesOnly h

/-! ## 7. The tree after a task -/

/-- A record that is written is read back. -/
theorem readRecord_recordOf (hout : ∀ out ∈ task.outputs, PlainName out)
    (hfew : task.outputs.length ≤ 64) {key : Bytes} (hk : IsHash key) (fs : FS) :
    readRecord (recordText key (recordOf fs task)) = .ok (recordOf fs task) := by
  refine readRecord_recordText hk (isHash_blobHash _) ?_ fun entry he => ?_
  · exact (List.length_filterMap_le ..).trans hfew
  · obtain ⟨out, hmem, hsome⟩ := List.mem_filterMap.mp he
    obtain ⟨data, -, rfl⟩ := Option.map_eq_some_iff.mp hsome
    exact ⟨hout out hmem, isHash_blobHash data⟩

section Recorded

variable (hi : StoreOk fs) (ho : OutsideAll fs.cwd task.outputs) {key : Bytes}
  (hn : fs.node (recordPath fs.cwd key) = none)

include hi ho hn

theorem node_outputsStored :
    (outputsStored fs task).node (recordPath (outputsStored fs task).cwd key) = none := by
  obtain ⟨h1, -⟩ := outputsStored_stores hi ho
  rw [h1.node_record, hn]

theorem recorded_grows (ps : Set Path) : Grows ps fs (recorded fs task key) := by
  obtain ⟨h1, -⟩ := outputsStored_stores hi ho
  have hset := grows_record (node_outputsStored hi ho hn) (recordText key (recordOf fs task)) ps
  rw [h1.cwd] at hset
  exact (h1.grows ps).trans hset

theorem recorded_storeInv {S : Set Bytes} (hS : StoreInv S fs)
    (hmem : ∀ out ∈ task.outputs, ∀ data, fs.read out = some data → data ∈ S) :
    StoreInv S (recorded fs task key) := by
  obtain ⟨h1, -, -, h4⟩ := outputsStored_stores hi ho
  have hnode := node_outputsStored hi ho hn
  have hset := (h4 S hS hmem).set_record (by rw [hnode]; simp) (recordText key (recordOf fs task))
  rwa [h1.cwd] at hset

theorem recorded_cacheIntact (hout : ∀ out ∈ task.outputs, PlainName out)
    (hfew : task.outputs.length ≤ 64) (hk : IsHash key) (hc : CacheIntact fs) :
    CacheIntact (recorded fs task key) := by
  obtain ⟨h1, -, h3, -⟩ := outputsStored_stores hi ho
  have hset := (hc.stores h1).set_record (node_outputsStored hi ho hn)
    (recordText key (recordOf fs task)) fun r hr entry he => by
      rw [readRecord_recordOf hout hfew hk] at hr
      obtain rfl := Except.ok.inj hr
      exact h3 entry he
  rwa [h1.cwd] at hset

end Recorded

theorem read_recorded (hi : StoreOk fs) (ho : OutsideAll fs.cwd task.outputs) {key : Bytes}
    (hk : IsHash key) :
    (recorded fs task key).read (metaPath key) = some (recordText key (recordOf fs task)) := by
  obtain ⟨h1, -⟩ := outputsStored_stores hi ho
  rw [read_metaPath hk, recorded, FS.set_cwd, h1.cwd, FS.set_node_self]

/-! ## 8. What a command and a restore write -/

/-- Files change at the places of the outputs and nothing else changes. -/
structure WritesOutputs (task : Task) (fs fs' : FS) : Prop extends FilesOnly fs fs' where
  elsewhere : ∀ p, p ∉ task.places fs.cwd → fs'.node p = fs.node p

theorem WritesOutputs.grows (h : WritesOutputs task fs fs') : Grows (task.places fs.cwd) fs fs' where
  cwd := h.cwd
  keep p _ hp hn := (h.inside p hp).trans hn
  outside p _ hps := h.elsewhere p hps
  dir p _ := h.dir p

theorem writesOutputs_restoreWrites (ho : OutsideAll fs.cwd task.outputs)
    (entries : List (Bytes × Bytes)) :
    WritesOutputs task fs (fs.setFiles (restoreWrites fs task.outputs entries)) where
  toFilesOnly := filesOnly_restoreWrites ho entries
  elsewhere p hp := by
    rw [FS.setFiles_node]
    cases hl : lastWrite p (restoreWrites fs task.outputs entries) with
    | none => rfl
    | some x =>
      obtain ⟨entry, -, hout, -, he⟩ := mem_restoreWrites.mp (lastWrite_mem hl)
      exact absurd ⟨entry.1, hout, (Prod.mk.inj he).1.symm⟩ hp

/-! ## 9. A tree with an empty store -/

/-- An empty store, and a file for the task to read. -/
def makeTree (x : Bytes) : FS :=
  (casInit workDir (ascii ".")).2.set [ascii "w", ascii "i"] (some (.file x))

theorem resolve_o (cwd : Path) : resolve cwd (ascii "o") = cwd ++ [ascii "o"] := rfl

theorem not_inside_o (cwd : Path) : ¬ Inside cwd (resolve cwd (ascii "o")) := by
  rw [resolve_o, Inside, reprovmDir, List.prefix_append_right_inj]
  decide

theorem makeTree_eq (x : Bytes) : makeTree x =
    (workDir.addDirs (initDirs workDir.cwd)).set [ascii "w", ascii "i"] (some (.file x)) := by
  rw [makeTree, workDir_noStore.init_eq]

theorem makeTree_store (x : Bytes) : StoreInv ∅ (makeTree x) := by
  have hi : StoreInv ∅ (casInit workDir (ascii ".")).2 :=
    workDir_noStore.runInv.store.mono (by rintro d ⟨op, hop, -⟩; cases hop)
  have hcwd : (casInit workDir (ascii ".")).2.cwd = [ascii "w"] := by
    rw [workDir_noStore.init_eq]
    rfl
  refine hi.set ?_ ?_ x
  · rw [hcwd]
    decide
  · rw [workDir_noStore.init_eq]
    decide

theorem makeTree_node (x : Bytes) {p : Path} (hp : p ≠ [ascii "w", ascii "i"]) :
    (makeTree x).node p = (workDir.addDirs (initDirs workDir.cwd)).node p := by
  rw [makeTree_eq, FS.set_node_ne _ _ hp]

theorem makeTree_cwd (x : Bytes) : (makeTree x).cwd = [ascii "w"] := by
  rw [makeTree_eq]
  rfl

theorem makeTree_record (x key : Bytes) :
    (makeTree x).node (recordPath (makeTree x).cwd key) = none := by
  have hne : ascii "cache" ≠ ascii "cas" := by decide
  rw [makeTree_cwd, makeTree_node x (by simp [recordPath, cacheDir, reprovmDir]),
    FS.addDirs_node_of_notMem]
  · simp [workDir, recordPath, cacheDir, reprovmDir]
  · simp [workDir, initDirs, recordPath, cacheDir, reprovmDir, casDir, objectsDir, hne]

theorem makeTree_writable_o (x : Bytes) : (makeTree x).Writable (ascii "o") := by
  refine ⟨by decide, ?_, ?_⟩ <;> rw [resolve_o, makeTree_cwd, makeTree_node x (by decide)] <;> decide

theorem makeTree_writable_record (x : Bytes) {key : Bytes} (hk : IsHash key) :
    (makeTree x).Writable (metaPath key) := by
  refine writable_metaPath hk ?_ (by rw [makeTree_record]; simp)
  rw [makeTree_cwd, makeTree_node x (by decide)]
  decide

theorem makeTree_read (x : Bytes) : (makeTree x).read (ascii "i") = some x := by
  rw [makeTree_eq]
  exact FS.read_set_self (s := ascii "i") (by decide) x

theorem makeTree_object (x h : Bytes) : (makeTree x).node (objectPath (makeTree x).cwd h) = none := by
  cases hn : (makeTree x).node (objectPath (makeTree x).cwd h) with
  | none => rfl
  | some n =>
    obtain ⟨d, hd, -⟩ := (makeTree_store x).object hn
    exact absurd hd (Set.notMem_empty d)

theorem makeTree_cache (x : Bytes) : CacheIntact (makeTree x) := by
  intro key content r hk hread
  rw [(read_metaPath_eq_none hk _).mpr (makeTree_record x key)] at hread
  cases hread

end ReproVM
