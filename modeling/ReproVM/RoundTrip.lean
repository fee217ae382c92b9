/-
# Writing a record and reading it

`write_task_record` prints a line for each output, unescaped, and `try_load_task_record` takes the
first two words of a line, for 64 lines at most.  What was written is recovered, and restored
later, exactly for tasks of at most 64 outputs without a space in their names.
-/
import ReproVM.Main

namespace ReproVM

open Bytes (ascii)

variable {fs fs' : FS} {task : Task}

/-! ## 1. The pairs that are written -/

/-- What the loop of `write_task_record` prints: the outputs with their blobs, in order. -/
def writtenOutputs (fs : FS) (p : Path) : List Bytes → List (Bytes × Bytes)
  | [] => []
  | out :: outs =>
    match casStoreBlobFromFile fs out with
    | (none, fs) => writtenOutputs fs p outs
    | (some h, fs) => (out, h) ::
      writtenOutputs (fs.write p (ascii "output " ++ out ++ ascii " " ++ h ++ ascii "\n")) p outs

def writtenPairs (fs : FS) (task : Task) : List (Bytes × Bytes) :=
  match task.taskHash with
  | none => []
  | some taskHash =>
    match fs.openWrite (metaPath taskHash) with
    | none => []
    | some fs =>
      let p := resolve fs.cwd (metaPath taskHash)
      let fs := fs.write p (ascii "task_hash: " ++ taskHash ++ ascii "\n")
      let fs := fs.write p (ascii "result_hash: " ++ task.resultHash.getD [] ++ ascii "\n")
      writtenOutputs fs p task.outputs

/-- A file that is written to can still be read, and so can the others. -/
theorem read_set_ne_none {p : Path} (hp : fs.node p ≠ some .dir) {s : Bytes}
    (h : fs.read s ≠ none) (c : Bytes) : (fs.set p (some (.file c))).read s ≠ none := by
  by_cases hs : resolve fs.cwd s = p
  · subst hs
    rw [FS.read, FS.lookup] at h
    rw [FS.read, FS.lookup, FS.set_cwd, FS.set_node_self]
    by_cases hn : s = []
    · simp [hn] at h
    · rcases hnode : fs.node (resolve fs.cwd s) with _ | d | _ <;> cases hd : namesDir s <;> simp_all
  · rwa [FS.read_congr (FS.set_cwd ..) (FS.set_node_ne _ _ hs)]

/-- **The lines of the outputs.**  Each pair has a line, in order; an output that can be read has
a pair. -/
theorem writeOutputs_pairs (hi : StoreOk fs) {key c : Bytes}
    (hp : fs.node (recordPath fs.cwd key) = some (.file c)) (outs : List Bytes) :
    (writeOutputs fs (recordPath fs.cwd key) outs).cwd = fs.cwd ∧
      (writeOutputs fs (recordPath fs.cwd key) outs).node (recordPath fs.cwd key) =
        some (.file (c ++ (writtenOutputs fs (recordPath fs.cwd key) outs).flatMap fun entry =>
          outputLine entry ++ ascii "\n")) ∧
      (∀ entry ∈ writtenOutputs fs (recordPath fs.cwd key) outs, entry.1 ∈ outs ∧ IsHash entry.2) ∧
      ((∀ out ∈ outs, fs.read out ≠ none) →
        (writtenOutputs fs (recordPath fs.cwd key) outs).map Prod.fst = outs) := by
  induction outs generalizing fs c with
  | nil => simp [writeOutputs, writtenOutputs, hp]
  | cons out outs ih =>
    rw [writeOutputs, writtenOutputs, hi.casStoreBlobFromFile]
    cases hr : fs.read out with
    | none =>
      obtain ⟨h1, h2, h3, -⟩ := ih hi hp
      refine ⟨h1, h2, fun entry he => ?_, fun hall => ?_⟩
      · obtain ⟨h4, h5⟩ := h3 entry he
        exact ⟨List.mem_cons_of_mem _ h4, h5⟩
      · exact absurd hr (hall out List.mem_cons_self)
    | some data =>
      have hstores := hi.stores_addObject (blobHash data) data
      have hp₁ := hstores.keep _ _ hp
      have hnd : (fs.addObject (blobHash data) data).node
          (recordPath (fs.addObject (blobHash data) data).cwd key) ≠ some .dir := by
        rw [FS.addObject_cwd, hp₁]
        simp
      have hset := (hi.addObject data).set_record hnd (c ++ (outputLine (out, blobHash data) ++ ascii "\n"))
      have hline : ascii "output " ++ out ++ ascii " " ++ blobHash data ++ ascii "\n"
          = outputLine (out, blobHash data) ++ ascii "\n" := rfl
      dsimp only
      rw [hline, FS.write_file hp₁]
      rw [FS.addObject_cwd] at hset
      have hstep := ih hset (c := c ++ (outputLine (out, blobHash data) ++ ascii "\n"))
        (by rw [FS.set_cwd, FS.addObject_cwd, FS.set_node_self])
      rw [FS.set_cwd, FS.addObject_cwd] at hstep
      obtain ⟨h1, h2, h3, h4⟩ := hstep
      refine ⟨h1, ?_, fun entry he => ?_, fun hall => ?_⟩
      · rw [h2, List.flatMap_cons, List.append_assoc, List.append_assoc]
      · rcases List.mem_cons.mp he with rfl | he
        · exact ⟨List.mem_cons_self, isHash_blobHash data⟩
        · obtain ⟨h5, h6⟩ := h3 entry he
          exact ⟨List.mem_cons_of_mem _ h5, h6⟩
      · rw [List.map_cons, h4 fun o ho => ?_]
        refine read_set_ne_none (by rw [hp₁]; simp) ?_ _
        obtain ⟨d, hd⟩ := Option.ne_none_iff_exists'.mp (hall o (List.mem_cons_of_mem _ ho))
        rw [hstores.read hd]
        simp

/-- **The record of a task**, where its file can be written. -/
theorem writeTaskRecord_pairs (hi : StoreOk fs) {key result : Bytes} (hk : IsHash key)
    (hkey : task.taskHash = some key) (hres : task.resultHash = some result)
    (hw : fs.Writable (metaPath key)) :
    (writeTaskRecord fs task).1 = true ∧
      (writeTaskRecord fs task).2.read (metaPath key) =
        some (recordText key ⟨result, writtenPairs fs task⟩) ∧
      (∀ entry ∈ writtenPairs fs task, entry.1 ∈ task.outputs ∧ IsHash entry.2) ∧
      ((∀ out ∈ task.outputs, fs.read out ≠ none) →
        (writtenPairs fs task).map Prod.fst = task.outputs) := by
  have hd : fs.node (recordPath fs.cwd key) ≠ some .dir := resolve_metaPath hk fs.cwd ▸ hw.notDir
  have hset := hi.set_record hd
    (ascii "task_hash: " ++ key ++ ascii "\n" ++ (ascii "result_hash: " ++ result ++ ascii "\n"))
  obtain ⟨h1, h2, h3, h4⟩ := writeOutputs_pairs hset
    (show FS.node _ (recordPath _ key) = _ by rw [FS.set_cwd, FS.set_node_self]) task.outputs
  have hopen : fs.openWrite (metaPath key)
      = some (fs.set (recordPath fs.cwd key) (some (.file []))) := by
    rw [FS.openWrite_eq, if_pos hw, resolve_metaPath hk]
  rw [FS.set_cwd] at h1 h2 h3 h4
  rw [writeTaskRecord, writtenPairs, hkey, hres]
  simp only [hopen, FS.set_cwd, resolve_metaPath hk, Option.getD_some,
    FS.write_file (FS.set_node_self ..), FS.set_set, List.nil_append]
  refine ⟨trivial, ?_, h3, fun hall => h4 fun out hout => read_set_ne_none hd (hall out hout) _⟩
  rw [read_metaPath hk, h1, h2, recordText]

/-- Where the outputs lie outside, the pairs are those of what they hold. -/
theorem writtenOutputs_eq (hi : StoreOk fs) {outs : List Bytes} (ho : OutsideAll fs.cwd outs)
    {key : Bytes} (hd : fs.node (recordPath fs.cwd key) ≠ some .dir) (c : Bytes) :
    writtenOutputs (fs.set (recordPath fs.cwd key) (some (.file c))) (recordPath fs.cwd key) outs
      = outputEntries fs outs := by
  induction outs generalizing fs c with
  | nil => rfl
  | cons out outs ih =>
    have ho' : OutsideAll fs.cwd outs := fun o h => ho o (List.mem_cons_of_mem _ h)
    rw [writtenOutputs, (hi.set_record hd c).casStoreBlobFromFile,
      read_set_record (ho out List.mem_cons_self), outputEntries, List.filterMap_cons]
    cases hr : fs.read out with
    | none => exact ih hi ho' hd c
    | some data =>
      have hstores := hi.stores_addObject (blobHash data) data
      have hrec := hstores.elsewhere _ (not_objects_recordPath fs.cwd key)
      have hentries := hstores.outputEntries_eq ho'
      have := ih (hi.addObject data) (by rwa [FS.addObject_cwd]) (by rwa [FS.addObject_cwd, hrec])
        (c ++ (outputLine (out, blobHash data) ++ ascii "\n"))
      rw [FS.addObject_cwd, hentries] at this
      dsimp only
      rw [FS.addObject_set, FS.write_file (FS.set_node_self ..), FS.set_set, Option.map_some]
      exact congrArg ((out, blobHash data) :: ·) this

theorem writtenPairs_eq (hi : StoreOk fs) (ho : OutsideAll fs.cwd task.outputs) {key : Bytes}
    (hk : IsHash key) (hkey : task.taskHash = some key) (hw : fs.Writable (metaPath key)) :
    writtenPairs fs task = outputEntries fs task.outputs := by
  have hd : fs.node (recordPath fs.cwd key) ≠ some .dir := resolve_metaPath hk fs.cwd ▸ hw.notDir
  have hopen : fs.openWrite (metaPath key)
      = some (fs.set (recordPath fs.cwd key) (some (.file []))) := by
    rw [FS.openWrite_eq, if_pos hw, resolve_metaPath hk]
  rw [writtenPairs, hkey]
  simp only [hopen, FS.set_cwd, resolve_metaPath hk, FS.write_file (FS.set_node_self ..),
    FS.set_set]
  exact writtenOutputs_eq hi ho hd _

/-! ## 2. Restoring them -/

theorem EditOutside.node (h : EditOutside fs fs') {p : Path} (hp : Inside fs.cwd p) :
    fs'.node p = fs.node p := by
  obtain ⟨q, rfl⟩ := hp
  exact h.inside q

theorem Intact.edit {x : Bytes} (hx : Intact fs x) (h : EditOutside fs fs') : Intact fs' x := by
  obtain ⟨hash, data, hobj⟩ := hx
  refine ⟨hash, data, ?_⟩
  rw [h.cwd, h.node (inside_objects (objects_objectPath ..)), hobj]

/-- **Every output that an entry names is restored**, if no two entries for one place differ. -/
theorem restoreAll_read (hi : StoreOk fs) {outputs : List Bytes} (ho : OutsideAll fs.cwd outputs)
    {entries : List (Bytes × Bytes)} (hin : ∀ entry ∈ entries, Intact fs entry.2)
    (hout : ∀ entry ∈ entries, entry.1 ∈ outputs ∧ fs.Writable entry.1)
    (hone : ∀ e ∈ entries, ∀ e' ∈ entries, resolve fs.cwd e.1 = resolve fs.cwd e'.1 → e.2 = e'.2)
    {entry : Bytes × Bytes} (he : entry ∈ entries) :
    ∃ data, (restoreAll fs outputs entries).read entry.1 = some data ∧ blobHash data = entry.2 := by
  obtain ⟨hmem, hw⟩ := hout entry he
  have hwrite : (resolve fs.cwd entry.1, blobAt fs entry.2) ∈ restoreWrites fs outputs entries :=
    mem_restoreWrites.mpr ⟨entry, he, hmem, hw, rfl⟩
  obtain ⟨data, hdata⟩ := lastWrite_isSome hwrite
  obtain ⟨e', he', -, -, heq⟩ := mem_restoreWrites.mp (lastWrite_mem hdata)
  obtain ⟨hplace, rfl⟩ := Prod.mk.inj heq
  refine ⟨blobAt fs e'.2, ?_, ?_⟩
  · rw [restoreAll, restoreOutputs_eq hi ho hin]
    refine FS.read_of_node hw.name ?_
    rw [FS.setFiles_cwd, FS.setFiles_node, hdata]
    rfl
  · rw [blobHash_blobAt hi (hin e' he'), hone entry he e' he' hplace]

/-- Entries for one place that can be written are equal. -/
theorem outputEntries_one {outputs : List Bytes} (hw : ∀ out ∈ outputs, namesDir out = false)
    {e e' : Bytes × Bytes} (he : e ∈ outputEntries fs outputs) (he' : e' ∈ outputEntries fs outputs)
    (h : resolve fs.cwd e.1 = resolve fs.cwd e'.1) : e.2 = e'.2 := by
  obtain ⟨out, hmem, hsome⟩ := List.mem_filterMap.mp he
  obtain ⟨out', hmem', hsome'⟩ := List.mem_filterMap.mp he'
  obtain ⟨data, hr, rfl⟩ := Option.map_eq_some_iff.mp hsome
  obtain ⟨data', hr', rfl⟩ := Option.map_eq_some_iff.mp hsome'
  have hsame : fs.read out' = fs.read out := by
    rw [FS.read, FS.read, FS.lookup, FS.lookup, if_neg (FS.ne_nil_of_namesDir (hw out hmem)),
      if_neg (FS.ne_nil_of_namesDir (hw out' hmem')), hw out hmem, hw out' hmem']
    dsimp only at h
    rw [h]
  rw [hr, hr'] at hsame
  rw [Option.some.inj hsame]

/-! ## 3. The round trip -/

/-- The record of a task is written, with a pair for each output; the reader recovers the result
hash and the pairs; and whatever is then edited outside, it restores the outputs. -/
structure RecordRoundTrip (fs : FS) (task : Task) (key : Bytes) : Prop where
  written : (writeTaskRecord fs task).1 = true
  names : (writtenPairs fs task).map Prod.fst = task.outputs
  recovered : ∃ content r, (writeTaskRecord fs task).2.read (metaPath key) = some content ∧
    readRecord content = .ok r ∧ task.resultHash = some r.resultHash ∧
    r.outputs = writtenPairs fs task
  restored : OutsideAll fs.cwd task.outputs → ∀ fs', EditOutside (writeTaskRecord fs task).2 fs' →
    (∀ out ∈ task.outputs, fs'.Writable out) → ∃ task' fs'',
      tryLoadTaskRecord fs' task = .ok (1, task', fs'') ∧ task'.resultHash = task.resultHash ∧
      ∀ entry ∈ writtenPairs fs task,
        ∃ data, fs''.read entry.1 = some data ∧ blobHash data = entry.2

/-- The lookup in an edited tree, where the record is read back. -/
theorem writeTaskRecord_restored (hi : StoreOk fs) {key result : Bytes} (hk : IsHash key)
    (hkey : task.taskHash = some key) (hres : task.resultHash = some result)
    (hw : fs.Writable (metaPath key))
    (hback : readRecord (recordText key ⟨result, writtenPairs fs task⟩)
      = .ok ⟨result, writtenPairs fs task⟩)
    (ho : OutsideAll fs.cwd task.outputs) (hedit : EditOutside (writeTaskRecord fs task).2 fs')
    (hwo : ∀ out ∈ task.outputs, fs'.Writable out) : ∃ task' fs'',
      tryLoadTaskRecord fs' task = .ok (1, task', fs'') ∧ task'.resultHash = task.resultHash ∧
      ∀ entry ∈ writtenPairs fs task,
        ∃ data, fs''.read entry.1 = some data ∧ blobHash data = entry.2 := by
  obtain ⟨-, hread, hmem, -⟩ := writeTaskRecord_pairs hi hk hkey hres hw
  have hpairs := writtenPairs_eq hi ho hk hkey hw
  obtain ⟨h1, h2, h3, -⟩ := storeAll_stores hi ho
  have htree : (writeTaskRecord fs task).2 = (storeAll fs task.outputs).set
      (recordPath fs.cwd key) (some (.file (recordText key ⟨result, writtenPairs fs task⟩))) := by
    rw [writeTaskRecord_eq hi ho hk hkey hres, if_pos hw, hpairs]
  have hd : (storeAll fs task.outputs).node (recordPath (storeAll fs task.outputs).cwd key)
      ≠ some .dir := by
    rw [h1.node_record]
    exact resolve_metaPath hk fs.cwd ▸ hw.notDir
  have hcwd : (writeTaskRecord fs task).2.cwd = fs.cwd := by rw [htree, FS.set_cwd, h1.cwd]
  have hstore : StoreOk (writeTaskRecord fs task).2 := by
    have := h2.set_record hd (recordText key ⟨result, writtenPairs fs task⟩)
    rwa [h1.cwd, ← htree] at this
  have hintact : ∀ entry ∈ writtenPairs fs task, Intact fs' entry.2 := by
    intro entry he
    refine Intact.edit ?_ hedit
    obtain ⟨hash, data, hobj⟩ := h3 entry (hpairs ▸ he)
    refine ⟨hash, data, ?_⟩
    rw [htree, FS.set_cwd, FS.set_node_ne, hobj]
    rw [h1.cwd]
    intro hp
    exact not_objects_recordPath fs.cwd key (hp ▸ objects_objectPath ..)
  have hread' : fs'.read (metaPath key) = some (recordText key ⟨result, writtenPairs fs task⟩) := by
    rw [← hread]
    refine FS.read_congr hedit.cwd (hedit.node ?_)
    rw [resolve_metaPath hk]
    exact inside_recordPath ..
  rw [tryLoadTaskRecord_eq fs' task hkey, hread', hres]
  simp only [hback]
  refine ⟨_, _, rfl, rfl, fun entry he => ?_⟩
  have hcwd' : fs'.cwd = fs.cwd := hedit.cwd.trans hcwd
  refine restoreAll_read (hstore.edit hedit) (by rwa [hcwd']) hintact
    (fun e he => ⟨(hmem e he).1, hwo _ (hmem e he).1⟩) (fun e he e' he' hp => ?_) he
  rw [hpairs] at he he'
  rw [hcwd'] at hp
  exact outputEntries_one (fun out hout => (hwo out hout).name) he he' hp

/-- **When a record makes the round trip.** -/
theorem recordRoundTrip_iff (hi : StoreOk fs) {key result : Bytes} (hk : IsHash key)
    (hr : IsHash result) (hkey : task.taskHash = some key) (hres : task.resultHash = some result)
    (hw : fs.Writable (metaPath key)) (hline : ∀ out ∈ task.outputs, LineName out)
    (hex : ∀ out ∈ task.outputs, fs.read out ≠ none) :
    RecordRoundTrip fs task key ↔
      (∀ out ∈ task.outputs, 32 ∉ out) ∧ task.outputs.length ≤ 64 := by
  obtain ⟨hwritten, hread, hmem, hnames⟩ := writeTaskRecord_pairs hi hk hkey hres hw
  replace hnames := hnames hex
  have hiff := readRecord_recordText_iff (r := ⟨result, writtenPairs fs task⟩) hk hr
    fun entry he => ⟨hline _ (hmem entry he).1, (hmem entry he).2⟩
  have hcond : ((∀ entry ∈ writtenPairs fs task, 32 ∉ entry.1) ∧
      (writtenPairs fs task).length ≤ 64) ↔
        (∀ out ∈ task.outputs, 32 ∉ out) ∧ task.outputs.length ≤ 64 := by
    rw [← hnames, List.forall_mem_map, List.length_map]
  rw [← hcond, ← hiff]
  constructor
  · rintro ⟨-, -, ⟨content, ⟨r, es⟩, h1, h2, h3, rfl⟩, -⟩
    rw [hread] at h1
    obtain rfl := Option.some.inj h1
    rw [hres] at h3
    obtain rfl := Option.some.inj h3
    exact h2
  · intro hback
    exact ⟨hwritten, hnames, ⟨_, _, hread, hback, hres, rfl⟩,
      fun ho fs' hedit hwo => writeTaskRecord_restored hi hk hkey hres hw hback ho hedit hwo⟩

/-- An output of a manifest is a line with a word in it. -/
theorem FreshTask.lineName (h : FreshTask task) {out : Bytes} (ho : out ∈ task.outputs) :
    LineName out := by
  obtain ⟨hne, htight, hline⟩ := h.outputs out ho
  obtain ⟨c, l, rfl⟩ := List.exists_cons_of_ne_nil hne
  refine ⟨⟨c, List.mem_cons_self, ?_⟩, fun h => (hline 0 h).1 rfl, fun h => (hline 10 h).2 rfl⟩
  rintro rfl
  exact absurd (htight.1 32 rfl) (by decide)

/-- An output that is there, in a tree with an empty store. -/
def outputTree (out : Bytes) : FS := (makeTree []).set [ascii "w", out] (some (.file []))

theorem outputTree_filesOnly {out : Bytes} (h : out ≠ ascii ".reprovm") :
    FilesOnly (makeTree []) (outputTree out) := by
  refine .set ?_ ?_ []
  · rw [makeTree_cwd, Inside, reprovmDir, List.singleton_append]
    simpa using Ne.symm h
  · by_cases hi : out = ascii "i"
    · rw [hi, makeTree_eq, FS.set_node_self]
      simp
    · rw [makeTree_node [] (by simpa using hi), FS.addDirs_node_of_notMem]
      · simp [workDir]
      · simp [workDir, initDirs, reprovmDir, casDir, objectsDir, cacheDir, h]

theorem outputTree_ready {out : Bytes} (h : out ≠ ascii ".reprovm") (hname : namesDir out = false)
    (hplace : resolve [ascii "w"] out = [ascii "w", out]) {key : Bytes} (hk : IsHash key) :
    StoreOk (outputTree out) ∧ (outputTree out).Writable (metaPath key) ∧
      (outputTree out).read out = some [] := by
  have hf := outputTree_filesOnly h
  refine ⟨hf.storeInv (makeTree_store []).ok, ?_, FS.read_of_node hname ?_⟩
  · rw [hf.writable_iff]
    exact makeTree_writable_record [] hk
  · rw [hf.cwd, makeTree_cwd, hplace, outputTree, FS.set_node_self]

end ReproVM
