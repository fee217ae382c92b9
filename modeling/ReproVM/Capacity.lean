/-
# What is larger than the space for it

Two texts are built with `strcat` in buffers of 4096 bytes, and the reader of a record has tables
for 64 outputs; nothing looks at the sizes.  The parser takes a line of 4095 bytes, which has room
for some two thousand items of a list, and each item adds the 64 digits of a hash and a comma to
its text.  So which tasks fit is a matter of what they declare: `preimages_fit_iff` for the texts,
and `record_table_iff` for the lines of a record, which `write_task_record` writes without a bound.
-/
import ReproVM.HashTexts
import ReproVM.CasRuns
import Mathlib.Data.List.Infix

namespace ReproVM

open Bytes (ascii pieces)

variable {fs : FS} {task : Task}

/-! ## 1. The lengths of the texts -/

theorem depsText_length (task : Task) : (depsText task).length = task.deps.length - 1 + 6 := by
  have hempty : ∀ n : Nat, (Bytes.unpieces 44 (List.replicate n [])).length = n - 1 := by
    intro n
    induction n with
    | zero => rfl
    | succ n ih =>
      cases n with
      | zero => rfl
      | succ m =>
        rw [List.replicate_succ, List.replicate_succ, Bytes.unpieces, ← List.replicate_succ,
          List.nil_append, List.length_cons, ih]
        omega
  have hmap : task.deps.map (fun _ => ascii "") = List.replicate task.deps.length [] :=
    List.map_const' ..
  have h5 : (ascii "deps=").length = 5 := by decide
  have h1 : (ascii "\n").length = 1 := by decide
  unfold depsText
  split
  · rename_i hnil
    rw [hnil]
    decide
  · rw [joinStrings_eq, hmap, List.length_append, List.length_append, hempty, h5, h1]
    omega

/-- Strings of at most 64 bytes, joined. -/
theorem joinStrings_length_le {xs : List Bytes} (h : ∀ x ∈ xs, x.length ≤ 64) :
    (joinStrings xs (ascii ",")).length ≤ 65 * xs.length - 1 := by
  rw [joinStrings_eq]
  induction xs with
  | nil => exact Nat.zero_le _
  | cons x xs ih =>
    have hx := h x List.mem_cons_self
    cases xs with
    | nil => exact hx
    | cons y ys =>
      have hrest := ih fun z hz => h z (List.mem_cons_of_mem _ hz)
      rw [Bytes.unpieces, List.length_append, List.length_cons]
      simp only [List.length_cons] at hrest ⊢
      omega

/-- The task hash overflows its buffer where the inputs are hashed and the text is too long. -/
theorem computeTaskHash_overflow_iff :
    computeTaskHash fs task = .error .bufferOverflow ↔
      ∃ hs, (storeInputs fs task.inputs).1 = some hs ∧ 4096 ≤ (taskText task hs).length := by
  unfold computeTaskHash
  rcases storeInputs fs task.inputs with ⟨_ | hs, fs₁⟩
  · simp
  · dsimp only
    by_cases hl : (taskText task hs).length < 4096
    · rw [if_pos hl]
      simp [hl]
    · rw [if_neg hl]
      simp [Nat.le_of_not_lt hl]

theorem computeResultHash_overflow_iff :
    computeResultHash fs task = .error .bufferOverflow ↔ 4096 ≤ (outputsText fs task).length := by
  unfold computeResultHash
  dsimp only
  rw [← outputsText]
  by_cases hl : (outputsText fs task).length < 4096
  · rw [if_pos hl]
    simp [hl]
  · rw [if_neg hl]
    simp [Nat.le_of_not_lt hl]

theorem contentText_length_le (content : Option Bytes) : (contentText content).length ≤ 64 := by
  cases content with
  | none => exact Nat.zero_le _
  | some data => exact le_of_eq (isHash_blobHash data).length

theorem outputsText_length_le (fs : FS) (task : Task) :
    (outputsText fs task).length ≤ 65 * task.outputs.length - 1 := by
  have hle : ∀ x ∈ sortStrings (storeOutputs fs task.outputs).1, x.length ≤ 64 := by
    intro x hx
    rw [(sortStrings_perm _).mem_iff, storeOutputs_contents] at hx
    obtain ⟨c, -, rfl⟩ := List.mem_map.mp hx
    exact contentText_length_le c
  have hcount : (sortStrings (storeOutputs fs task.outputs).1).length = task.outputs.length := by
    rw [(sortStrings_perm _).length_eq, storeOutputs_contents, List.length_map,
      outputContents_length]
  exact hcount ▸ joinStrings_length_le hle

/-! ## 2. A tree in which everything is there -/

/-- What can be read can be read after a store. -/
theorem read_addObject_ne_none {s : Bytes} (hr : fs.read s ≠ none) (h data : Bytes) :
    (fs.addObject h data).read s ≠ none := by
  obtain ⟨d, hd⟩ := Option.ne_none_iff_exists'.mp hr
  rw [read_addObject (FS.node_ne_none_of_read hd), hd]
  simp

/-- A store that is ready takes every input that can be read. -/
theorem StoreReady.storeInputs (hready : StoreReady fs) {paths : List Bytes}
    (h : ∀ p ∈ paths, fs.read p ≠ none) : ∃ hs, (storeInputs fs paths).1 = some hs := by
  induction paths generalizing fs with
  | nil => exact ⟨[], rfl⟩
  | cons p paths ih =>
    rcases casStoreBlobFromFile_cases fs p with ⟨hnone, -⟩ | ⟨data, hread, he | ⟨hn, -⟩⟩
    · exact absurd hnone (h p List.mem_cons_self)
    · obtain ⟨hs, hrest⟩ := ih (hready.addObject (blobHash data) data) fun q hq =>
        read_addObject_ne_none (h q (List.mem_cons_of_mem _ hq)) _ _
      refine ⟨blobHash data :: hs, ?_⟩
      unfold ReproVM.storeInputs
      rw [he]
      dsimp only
      rcases hr : ReproVM.storeInputs (fs.addObject (blobHash data) data) paths with ⟨_ | ys, fs₂⟩ <;>
        rw [hr] at hrest
      · cases hrest
      · obtain rfl := Option.some.inj hrest
        rfl
    · exact absurd hready hn

/-- And every output that can be read. -/
theorem StoreReady.storeOutputs (hready : StoreReady fs) {outs : List Bytes}
    (h : ∀ out ∈ outs, fs.read out ≠ none) : ∀ x ∈ (storeOutputs fs outs).1, IsHash x := by
  induction outs generalizing fs with
  | nil => simp [ReproVM.storeOutputs]
  | cons out outs ih =>
    rcases casStoreBlobFromFile_cases fs out with ⟨hnone, -⟩ | ⟨data, hread, he | ⟨hn, -⟩⟩
    · exact absurd hnone (h out List.mem_cons_self)
    · have hrest := ih (hready.addObject (blobHash data) data) fun q hq =>
        read_addObject_ne_none (h q (List.mem_cons_of_mem _ hq)) _ _
      have hex : fs.fileExists out = true := by
        rw [fileExists_iff, hread]
        rfl
      unfold ReproVM.storeOutputs
      rw [if_pos hex, he]
      exact List.forall_mem_cons.mpr ⟨isHash_blobHash data, hrest⟩
    · exact absurd hready hn

/-- An empty store, and a directory at the place of each path and above it. -/
def placesTree (paths : List Bytes) : FS :=
  (casInit workDir (ascii ".")).2.addDirs ((paths.map (resolve [ascii "w"])).flatMap List.inits)

theorem placesTree_cwd (paths : List Bytes) : (placesTree paths).cwd = [ascii "w"] := by
  unfold placesTree
  rw [workDir_noStore.init_eq]
  rfl

theorem FS.addDirs_dir {fs : FS} (h : ∀ p n, fs.node p = some n → n = .dir) (ps : List Path) :
    ∀ p n, (fs.addDirs ps).node p = some n → n = .dir := by
  intro p n hp
  rw [FS.addDirs_node] at hp
  split at hp
  · exact (Option.some.inj hp).symm
  · exact h p n hp

/-- There are no files in an empty store. -/
theorem workDir_dir : ∀ p n, (casInit workDir (ascii ".")).2.node p = some n → n = .dir := by
  have hwork : ∀ p n, workDir.node p = some n → n = .dir := by
    intro p n hp
    unfold workDir at hp
    dsimp only at hp
    split at hp
    · exact (Option.some.inj hp).symm
    · cases hp
  rw [workDir_noStore.init_eq]
  exact FS.addDirs_dir hwork _

/-- And none in the tree of places. -/
theorem placesTree_dir (paths : List Bytes) {p : Path} {n : Node}
    (h : (placesTree paths).node p = some n) : n = .dir := by
  unfold placesTree at h
  exact FS.addDirs_dir workDir_dir _ p n h

theorem placesTree_read {paths : List Bytes} {path : Bytes} (hm : path ∈ paths) (hne : path ≠ []) :
    (placesTree paths).read path ≠ none := by
  have hnode : (placesTree paths).node (resolve [ascii "w"] path) ≠ none := by
    unfold placesTree
    rw [FS.addDirs_node]
    split
    · simp
    · rename_i hn
      intro hnone
      refine hn ⟨hnone, List.mem_flatMap.mpr ⟨_, List.mem_map_of_mem hm, ?_⟩⟩
      exact (List.mem_inits _ _).mpr (List.prefix_refl _)
  obtain ⟨n, hn⟩ := Option.ne_none_iff_exists'.mp hnode
  obtain rfl := placesTree_dir paths hn
  unfold FS.read FS.lookup
  rw [if_neg hne, placesTree_cwd, hn]
  simp

theorem placesTree_ready (paths : List Bytes) : StoreReady (placesTree paths) := by
  have hi := workDir_noStore.runInv.store
  have hcwd : (casInit workDir (ascii ".")).2.cwd = (placesTree paths).cwd := rfl
  have hkeep : ∀ p, (casInit workDir (ascii ".")).2.node p = some .dir →
      (placesTree paths).node p = some .dir := fun p hp => FS.addDirs_node_of_some hp _
  refine ⟨?_, ?_, ?_, ?_, fun x d hx => ?_⟩
  · exact hkeep _ hi.cwd
  · exact hkeep _ hi.reprovm
  · exact hkeep _ hi.cas
  · exact hkeep _ hi.objects
  · exact absurd (placesTree_dir paths hx) (by simp)

/-! ## 3. The buffers -/

/-- In no tree one of the two texts is longer than its buffer. -/
def PreimagesFit (task : Task) : Prop :=
  ∀ fs, computeTaskHash fs task ≠ .error .bufferOverflow ∧
    computeResultHash fs task ≠ .error .bufferOverflow

/-- The items of the lists are no empty strings. -/
structure ItemsNonempty (task : Task) : Prop where
  inputs : ∀ x ∈ task.inputs, x ≠ []
  outputs : ∀ x ∈ task.outputs, x ≠ []

theorem parserKeeps_items : ParserKeeps ItemsNonempty where
  new _ := ⟨by simp [taskNew], by simp [taskNew]⟩
  cmd _ _ _ _ _ h := ⟨h.inputs, h.outputs⟩
  list _ hline _ hxs _ h :=
    ⟨⟨fun x hx => (listField_fresh hline hxs x hx).1, h.outputs⟩,
      ⟨h.inputs, fun x hx => (listField_fresh hline hxs x hx).1⟩, ⟨h.inputs, h.outputs⟩⟩
  dependents _ _ h := ⟨h.inputs, h.outputs⟩

/-- The length of the text of the task hash, with the inputs hashed. -/
theorem taskText_length_stored {hs : List Bytes} (h : (storeInputs fs task.inputs).1 = some hs) :
    (taskText task hs).length = (task.cmd.getD []).length + (65 * task.inputs.length - 1) +
      (task.deps.length - 1) + 19 := by
  obtain ⟨hl, hhash⟩ := storeInputs_hashes h
  rw [taskText_length hl hhash, depsText_length, hl]
  omega

/-- **Which tasks fit.**  In every tree the two texts of a task of a manifest fit their buffers, if
and only if the command and the numbers of inputs, dependencies and outputs are small enough. -/
theorem preimages_fit_iff (content : Bytes) (task : Task) (hm : task ∈ parseManifest content) :
    PreimagesFit task ↔
      (task.cmd.getD []).length + (65 * task.inputs.length - 1) + (task.deps.length - 1) + 19 < 4096 ∧
        65 * task.outputs.length - 1 < 4096 := by
  constructor
  · -- the tree that has all inputs and outputs decides
    intro hfit
    obtain ⟨hin, hout⟩ := parserKeeps_items.parseManifest content task hm
    obtain ⟨htask, hresult⟩ := hfit (placesTree (task.inputs ++ task.outputs))
    have hready := placesTree_ready (task.inputs ++ task.outputs)
    constructor
    · obtain ⟨hs, hstored⟩ := hready.storeInputs fun p hp =>
        placesTree_read (List.mem_append_left _ hp) (hin p hp)
      rw [← taskText_length_stored hstored]
      exact Nat.lt_of_not_le fun h => htask (computeTaskHash_overflow_iff.mpr ⟨hs, hstored, h⟩)
    · have hhash := hready.storeOutputs fun p hp =>
        placesTree_read (List.mem_append_right task.inputs hp) (hout p hp)
      have hlen : (outputsText (placesTree (task.inputs ++ task.outputs)) task).length
          = 65 * task.outputs.length - 1 := by
        unfold outputsText
        rw [joinStrings_length fun x hx => hhash x ((sortStrings_perm _).mem_iff.mp hx),
          (sortStrings_perm _).length_eq, storeOutputs_contents, List.length_map,
          outputContents_length]
      rw [← hlen]
      exact Nat.lt_of_not_le fun h => hresult (computeResultHash_overflow_iff.mpr h)
  · rintro ⟨htask, hresult⟩ fs
    constructor
    · intro h
      obtain ⟨hs, hstored, hlen⟩ := computeTaskHash_overflow_iff.mp h
      rw [taskText_length_stored hstored] at hlen
      omega
    · intro h
      have := computeResultHash_overflow_iff.mp h
      have := outputsText_length_le fs task
      omega

theorem preimages_fit_small :
    ∃ task ∈ parseManifest (ascii "task t \x7b\ncmd = make\ninputs = a,b\n\x7d\n"),
      PreimagesFit task := by
  obtain ⟨task, hm, hsmall⟩ : ∃ task ∈ parseManifest
      (ascii "task t \x7b\ncmd = make\ninputs = a,b\n\x7d\n"),
      (task.cmd.getD []).length + (65 * task.inputs.length - 1) + (task.deps.length - 1) + 19 < 4096 ∧
        65 * task.outputs.length - 1 < 4096 := by decide
  exact ⟨task, hm, (preimages_fit_iff _ task hm).mpr hsmall⟩

/-- A manifest with one task, that has the same item `n + 1` times in the list of that key. -/
def longList (key : Bytes) (n : Nat) : Bytes :=
  ascii "task t \x7b\n" ++ key ++ ascii " = " ++ (List.replicate n (ascii "i,")).flatten ++
    ascii "i\n\x7d\n"

/-- A line of 137 bytes: 64 inputs. -/
theorem inputs_overflow_buffer :
    ∃ task ∈ parseManifest (longList (ascii "inputs") 63),
      computeTaskHash (makeTree (ascii "x")) task = .error .bufferOverflow ∧ ¬ PreimagesFit task := by
  obtain ⟨task, hm, hinputs⟩ : ∃ task ∈ parseManifest (longList (ascii "inputs") 63),
      task.inputs = List.replicate 64 (ascii "i") := by decide +kernel
  have hread : ∀ p ∈ task.inputs, (makeTree (ascii "x")).read p ≠ none := by
    intro p hp
    rw [hinputs] at hp
    rw [List.eq_of_mem_replicate hp, makeTree_read]
    simp
  obtain ⟨hs, hstored⟩ := (makeTree_store (ascii "x")).ready.storeInputs hread
  have hover : computeTaskHash (makeTree (ascii "x")) task = .error .bufferOverflow := by
    refine computeTaskHash_overflow_iff.mpr ⟨hs, hstored, ?_⟩
    rw [taskText_length_stored hstored, hinputs, List.length_replicate]
    omega
  exact ⟨task, hm, hover, fun hfit => (hfit _).1 hover⟩

/-! ## 4. The tables of a record -/

/-- A line that the reader takes for an output: the word `output` and two more. -/
def IsOutputLine (line : Bytes) : Prop :=
  startsWith (trim (cstr line)) (ascii "output ") = true ∧
    2 ≤ (strtokAll 32 ((trim (cstr line)).drop 7)).length

instance (line : Bytes) : Decidable (IsOutputLine line) :=
  inferInstanceAs (Decidable (startsWith (trim (cstr line)) (ascii "output ") = true ∧
    2 ≤ (strtokAll 32 ((trim (cstr line)).drop 7)).length))

/-- An output line takes an entry of the tables. -/
theorem readRecordLine_outputLine {line : Bytes} (h : IsOutputLine line) (r : Record) :
    ∃ entry, readRecordLine r line =
      if r.outputs.length < 64 then .ok { r with outputs := r.outputs ++ [entry] }
      else .error .bufferOverflow := by
  obtain ⟨hout, hwords⟩ := h
  have hres : startsWith (trim (cstr line)) (ascii "result_hash:") ≠ true := fun h =>
    absurd (startsWith_head h hout) (by decide)
  obtain ⟨fname, hash, ws, he⟩ :
      ∃ fname hash ws, strtokAll 32 ((trim (cstr line)).drop 7) = fname :: hash :: ws := by
    match strtokAll 32 ((trim (cstr line)).drop 7), hwords with
    | fname :: hash :: ws, _ => exact ⟨fname, hash, ws, rfl⟩
  refine ⟨(fname, hash), ?_⟩
  unfold readRecordLine
  dsimp only
  rw [if_neg hres, if_pos hout, he]

/-- Any other line leaves them alone. -/
theorem readRecordLine_other {line : Bytes} (h : ¬ IsOutputLine line) (r : Record) :
    ∃ r', readRecordLine r line = .ok r' ∧ r'.outputs = r.outputs := by
  unfold readRecordLine
  dsimp only
  by_cases hres : startsWith (trim (cstr line)) (ascii "result_hash:") = true
  · rw [if_pos hres]
    exact ⟨_, rfl, rfl⟩
  rw [if_neg hres]
  by_cases hout : startsWith (trim (cstr line)) (ascii "output ") = true
  · rw [if_pos hout]
    match hw : strtokAll 32 ((trim (cstr line)).drop 7) with
    | [] => exact ⟨r, rfl, rfl⟩
    | [_] => exact ⟨r, rfl, rfl⟩
    | _ :: _ :: _ => exact absurd ⟨hout, by rw [hw]; simp⟩ h
  · rw [if_neg hout]
    exact ⟨r, rfl, rfl⟩

/-- Over the lines: the tables have an entry for each output line, as long as there is room. -/
theorem foldlM_readRecordLine {lines : List Bytes} {r : Record} (hr : r.outputs.length ≤ 64) :
    lines.foldlM readRecordLine r ≠ .error .bufferOverflow ↔
      r.outputs.length + (lines.filter fun l => IsOutputLine l).length ≤ 64 := by
  induction lines generalizing r with
  | nil => simp [pure, Except.pure, hr]
  | cons l ls ih =>
    rw [List.foldlM_cons]
    by_cases hl : IsOutputLine l
    · obtain ⟨entry, he⟩ := readRecordLine_outputLine hl r
      rw [he, List.filter_cons_of_pos (by simpa using hl), List.length_cons]
      by_cases hroom : r.outputs.length < 64
      · rw [if_pos hroom]
        simp only [bind, Except.bind]
        rw [ih (by rw [List.length_append, List.length_singleton]; exact hroom), List.length_append,
          List.length_singleton]
        omega
      · rw [if_neg hroom]
        simp only [bind, Except.bind, ne_eq, not_true_eq_false, false_iff]
        omega
    · obtain ⟨r', he, hsame⟩ := readRecordLine_other hl r
      rw [he, List.filter_cons_of_neg (by simpa using hl), ← hsame]
      exact ih (by rwa [hsame])

/-- Loading overflows where reading the record does. -/
theorem tryLoadTaskRecord_overflow_iff {key content : Bytes} (hkey : task.taskHash = some key)
    (hread : fs.read (metaPath key) = some content) :
    tryLoadTaskRecord fs task = .error .bufferOverflow ↔
      readRecord content = .error .bufferOverflow := by
  have hex : fs.fileExists (metaPath key) = true := by
    rw [fileExists_iff, hread]
    rfl
  unfold tryLoadTaskRecord
  rw [hkey]
  simp only [hex, not_true_eq_false, if_false, hread]
  cases readRecord content with
  | error e => simp
  | ok r => simp

/-- **Which records stay inside the tables**: those with at most 64 lines for outputs. -/
theorem record_table_iff (fs : FS) (task : Task) (key content : Bytes)
    (hkey : task.taskHash = some key) (hread : fs.read (metaPath key) = some content) :
    tryLoadTaskRecord fs task ≠ .error .bufferOverflow ↔
      ((getlines content).filter fun l => IsOutputLine l).length ≤ 64 := by
  rw [ne_eq, tryLoadTaskRecord_overflow_iff hkey hread, ← ne_eq, readRecord,
    foldlM_readRecordLine (Nat.zero_le _), List.length_nil, Nat.zero_add]

theorem record_table_one :
    let key := blobHash []
    let fs := (makeTree []).set (recordPath [ascii "w"] key) (some (.file (ascii "output a b\n")))
    tryLoadTaskRecord fs { taskNew (ascii "t") with taskHash := some key } ≠
        .error .bufferOverflow ↔
      ((getlines (ascii "output a b\n")).filter fun l => IsOutputLine l).length ≤ 64 := by
  intro key fs
  refine record_table_iff fs { taskNew (ascii "t") with taskHash := some key } key
    (ascii "output a b\n") rfl ?_
  rw [read_metaPath (isHash_blobHash []), FS.set_cwd, makeTree_cwd, FS.set_node_self]

/-- The record of a task of 65 outputs is written, and overflows the tables when it is read. -/
theorem written_record_overflows :
    ∃ task ∈ parseManifest (longList (ascii "outputs") 64), ∃ key result fs',
      writeTaskRecord (makeTree (ascii "x"))
          { task with taskHash := some key, resultHash := some result } = (true, fs') ∧
        tryLoadTaskRecord fs' { task with taskHash := some key } = .error .bufferOverflow := by
  obtain ⟨task, hm, houts⟩ : ∃ task ∈ parseManifest (longList (ascii "outputs") 64),
      task.outputs = List.replicate 65 (ascii "i") := by decide +kernel
  have hk := isHash_blobHash (ascii "k")
  have ho : OutsideAll (makeTree (ascii "x")).cwd task.outputs := by
    intro out hout
    rw [houts] at hout
    rw [List.eq_of_mem_replicate hout, makeTree_cwd]
    unfold Inside
    decide
  have hstores := (storeAll_stores (makeTree_store (ascii "x")).ok ho).1
  let task' : Task :=
    { task with taskHash := some (blobHash (ascii "k")), resultHash := some (blobHash []) }
  have hkey : task'.taskHash = some (blobHash (ascii "k")) := rfl
  have hres : task'.resultHash = some (blobHash []) := rfl
  have ho : OutsideAll (makeTree (ascii "x")).cwd task'.outputs := ho
  have hwrite := writeTaskRecord_eq (makeTree_store (ascii "x")).ok ho hk hkey hres
  rw [if_pos (makeTree_writable_record (ascii "x") hk)] at hwrite
  have hentries : outputEntries (makeTree (ascii "x")) task.outputs
      = List.replicate 65 (ascii "i", blobHash (ascii "x")) := by
    rw [houts, outputEntries, List.filterMap_replicate, makeTree_read]
    rfl
  refine ⟨task, hm, blobHash (ascii "k"), blobHash [], _, hwrite, ?_⟩
  have hread : ∀ content, ((storeAll (makeTree (ascii "x")) task.outputs).set
      (recordPath (makeTree (ascii "x")).cwd (blobHash (ascii "k"))) (some (.file content))).read
        (metaPath (blobHash (ascii "k"))) = some content := by
    intro content
    rw [read_metaPath hk, FS.set_cwd, hstores.cwd, FS.set_node_self]
  refine (tryLoadTaskRecord_overflow_iff rfl (hread _)).mpr ?_
  rw [hentries, readRecord_recordText_eq hk (isHash_blobHash [])]
  · exact if_neg (by simp)
  · intro entry he
    rw [List.eq_of_mem_replicate he]
    exact ⟨⟨⟨105, by decide, by decide⟩, by decide, by decide⟩, isHash_blobHash (ascii "x")⟩

end ReproVM
