/-
# The two texts that are hashed

`compute_task_hash` builds a text of the command and of the sorted hashes of the inputs,
`compute_result_hash` one of the sorted hashes of the outputs.  The tree they read in may be any:
what is stored on the way changes nothing that was there (`storeInputs_contents`), so the hashes
are those of the contents.  The first text tells the command and which contents there are, each as
often as it is there (`task_text_exact`); the second tells the contents too, and not which output
has which (`result_hash_contents`).  Both are built in a buffer of 4096 bytes, and what a manifest
declares decides whether they fit (`preimages_fit_iff`).
-/
import ReproVM.KeyText
import ReproVM.Main
import ReproVM.TaskHash

namespace ReproVM

open Bytes (ascii pieces unpieces)

variable {fs : FS} {task : Task}

/-! ## 1. The inputs in any tree -/

/-- What is stored for the inputs: a hash for each. -/
theorem storeInputs_hashes {paths hs : List Bytes} (h : (storeInputs fs paths).1 = some hs) :
    hs.length = paths.length ∧ ∀ x ∈ hs, IsHash x := by
  induction paths generalizing fs hs with
  | nil =>
    obtain rfl := Option.some.inj h
    exact ⟨rfl, by simp⟩
  | cons p paths ih =>
    unfold storeInputs at h
    rcases hc : casStoreBlobFromFile fs p with ⟨_ | x, fs₁⟩ <;> rw [hc] at h
    · cases h
    dsimp only at h
    obtain ⟨data, -, rfl, -⟩ := casStoreBlobFromFile_some hc
    rcases hr : storeInputs fs₁ paths with ⟨_ | ys, fs₂⟩ <;> rw [hr] at h
    · cases h
    obtain rfl := Option.some.inj h
    have hys : (storeInputs fs₁ paths).1 = some ys := by rw [hr]
    obtain ⟨hlen, hhash⟩ := ih hys
    refine ⟨by rw [List.length_cons, List.length_cons, hlen], ?_⟩
    rw [List.forall_mem_cons]
    exact ⟨isHash_blobHash data, hhash⟩

/-- The hashes are those of the contents: what one input adds to the store does not change what
the next one reads. -/
theorem storeInputs_contents {paths ds hs : List Bytes} (hd : paths.map fs.read = ds.map some)
    (h : (storeInputs fs paths).1 = some hs) : hs = ds.map blobHash := by
  induction paths generalizing fs ds hs with
  | nil =>
    obtain rfl : ds = [] := by simpa using hd.symm
    exact (Option.some.inj h).symm
  | cons p paths ih =>
    cases ds with
    | nil => simp at hd
    | cons d ds =>
      obtain ⟨hp, hrest⟩ := List.cons.inj hd
      unfold storeInputs at h
      rcases hc : casStoreBlobFromFile fs p with ⟨_ | x, fs₁⟩ <;> rw [hc] at h
      · cases h
      dsimp only at h
      obtain ⟨data, hread, rfl, rfl⟩ := casStoreBlobFromFile_some hc
      obtain rfl : data = d := Option.some.inj (hread.symm.trans hp)
      have hafter : paths.map (fs.addObject (blobHash data) data).read = ds.map some := by
        rw [← hrest]
        refine List.map_congr_left fun q hq => read_addObject ?_ _ _
        have hq' : fs.read q ∈ ds.map some := hrest ▸ List.mem_map_of_mem hq
        obtain ⟨dq, -, hdq⟩ := List.mem_map.mp hq'
        exact FS.node_ne_none_of_read hdq.symm
      rcases hr : storeInputs (fs.addObject (blobHash data) data) paths with ⟨_ | ys, fs₂⟩ <;>
        rw [hr] at h
      · cases h
      obtain rfl := Option.some.inj h
      have hys : (storeInputs (fs.addObject (blobHash data) data) paths).1 = some ys := by rw [hr]
      rw [List.map_cons, ih hafter hys]

/-! ## 2. The text of the task hash -/

/-- `compute_task_hash` stores the inputs, whose hashes are `hs`, and feeds `buf` to SHA-256. -/
structure Feeds (fs : FS) (task : Task) (hs : List Bytes) (buf : Bytes) : Prop where
  stored : (storeInputs fs task.inputs).1 = some hs
  text : taskText task hs = buf
  fits : buf.length < 4096

theorem Feeds.computeTaskHash {hs : List Bytes} {buf : Bytes} (h : Feeds fs task hs buf) :
    computeTaskHash fs task = .ok (true, { task with taskHash := some (blobHash buf) },
      (storeInputs fs task.inputs).2) := by
  obtain ⟨hstored, rfl, hfits⟩ := h
  unfold ReproVM.computeTaskHash
  rcases hrun : storeInputs fs task.inputs with ⟨r, fs₁⟩
  rw [hrun] at hstored
  obtain rfl : r = some hs := hstored
  exact if_pos hfits

/-- The text does not tell the order of the inputs. -/
theorem taskText_perm {paths hs hs' : List Bytes} (hl : hs.length = task.inputs.length)
    (hl' : hs'.length = paths.length) (hp : hs.Perm hs') :
    taskText { task with inputs := paths } hs' = taskText task hs := by
  have htext : taskText { task with inputs := paths } hs' = _ := taskText_eq hl'
  rw [taskText_eq hl, htext, sortStrings_eq_iff.mpr hp]
  rfl

/-- **What the text of the task hash tells.**  Two tasks of manifests have one text only if they
have the same command and the same hashes of inputs, each as often; and other inputs with the
same contents, in any order and under any paths, leave the text as it is. -/
theorem task_text_exact :
    (∀ (content content' : Bytes) (task task' : Task), task ∈ parseManifest content →
      task' ∈ parseManifest content' → ∀ (fs fs' : FS) (hs hs' : List Bytes) (buf : Bytes),
        Feeds fs task hs buf → Feeds fs' task' hs' buf →
          task.cmd.getD [] = task'.cmd.getD [] ∧ hs.Perm hs') ∧
      ∀ (fs : FS) (task : Task) (paths ds ds' hs hs' : List Bytes) (buf : Bytes),
        task.inputs.map fs.read = ds.map some → paths.map fs.read = ds'.map some → ds.Perm ds' →
          Feeds fs task hs buf → (storeInputs fs paths).1 = some hs' →
            Feeds fs { task with inputs := paths } hs' buf := by
  constructor
  · intro content content' task task' hm hm' fs fs' hs hs' buf h h'
    obtain ⟨hl, hhash⟩ := storeInputs_hashes h.stored
    obtain ⟨hl', hhash'⟩ := storeInputs_hashes h'.stored
    obtain ⟨hcmd, hperm, -⟩ := (taskText_eq_iff (parseManifest_cmd content task hm)
      (parseManifest_cmd content' task' hm') hl hl' hhash hhash').mp (h.text.trans h'.text.symm)
    exact ⟨hcmd, hperm⟩
  · intro fs task paths ds ds' hs hs' buf hd hd' hp h hs'
    obtain ⟨hl, -⟩ := storeInputs_hashes h.stored
    obtain ⟨hl', -⟩ := storeInputs_hashes hs'
    refine ⟨hs', ?_, h.fits⟩
    rw [← h.text]
    refine taskText_perm hl hl' ?_
    rw [storeInputs_contents hd h.stored, storeInputs_contents hd' hs']
    exact hp.map blobHash

/-- A task that reads `i`, under one of its names. -/
def readsI (path : Bytes) : Task := { taskNew (ascii "t") with inputs := [path] }

theorem feeds_readsI : ∃ hs buf, Feeds (makeTree (ascii "x")) (readsI (ascii "i")) hs buf := by
  have hread : ∀ p ∈ (readsI (ascii "i")).inputs, (makeTree (ascii "x")).read p ≠ none := by
    simp [readsI, makeTree_read]
  obtain ⟨hs, fs', hrun⟩ := storeInputs_total (makeTree_store (ascii "x")).ok hread
  have hstored : (storeInputs (makeTree (ascii "x")) (readsI (ascii "i")).inputs).1 = some hs := by
    rw [hrun]
  obtain ⟨hl, hhash⟩ := storeInputs_hashes hstored
  refine ⟨hs, _, hstored, rfl, ?_⟩
  have hdeps : (depsText (readsI (ascii "i"))).length = 6 := by decide
  have hcmd : ((readsI (ascii "i")).cmd.getD []).length = 0 := by decide
  have hone : (readsI (ascii "i")).inputs.length = 1 := rfl
  rw [taskText_length hl hhash, hdeps, hcmd, hl, hone]
  decide

theorem task_text_exact_i :
    (∃ task ∈ parseManifest (ascii "task a \x7b\n cmd = x\n\x7d"), ∃ buf,
      Feeds workDir task [] buf ∧ task.cmd.getD [] = task.cmd.getD [] ∧
        ([] : List Bytes).Perm []) ∧
      ∃ hs hs' buf, Feeds (makeTree (ascii "x")) (readsI (ascii "i")) hs buf ∧
        Feeds (makeTree (ascii "x")) (readsI (ascii "./i")) hs' buf := by
  constructor
  · obtain ⟨task, hm, hin, hlen⟩ : ∃ task ∈ parseManifest (ascii "task a \x7b\n cmd = x\n\x7d"),
        task.inputs = [] ∧ (taskText task []).length < 4096 := by decide
    have hfeeds : Feeds workDir task [] (taskText task []) := ⟨by rw [hin]; rfl, rfl, hlen⟩
    exact ⟨task, hm, _, hfeeds,
      task_text_exact.1 _ _ task task hm hm workDir workDir [] [] _ hfeeds hfeeds⟩
  · obtain ⟨hs, buf, h⟩ := feeds_readsI
    have hdot : (makeTree (ascii "x")).read (ascii "./i") = some (ascii "x") := by
      rw [← makeTree_read (ascii "x")]
      exact FS.read_of_resolve_eq (by decide) (by decide) (by rw [makeTree_cwd]; rfl)
    have hread : ∀ p ∈ [ascii "./i"], (makeTree (ascii "x")).read p ≠ none := by
      simp [hdot]
    obtain ⟨hs', fs', hrun⟩ := storeInputs_total (makeTree_store (ascii "x")).ok hread
    refine ⟨hs, hs', buf, h, ?_⟩
    refine task_text_exact.2 (makeTree (ascii "x")) (readsI (ascii "i")) [ascii "./i"] [ascii "x"]
      [ascii "x"] hs hs' buf ?_ ?_ (List.Perm.refl _) h (by rw [hrun])
    · simp [readsI, makeTree_read]
    · simp [hdot]

/-! ## 3. The text of the result hash -/

/-- The content that is hashed for each output, in order; none for one that is missing or cannot
be stored. -/
def outputContents (fs : FS) : List Bytes → List (Option Bytes)
  | [] => []
  | out :: outs =>
    if fs.fileExists out then
      let r := casStoreBlobFromFile fs out
      (if r.1.isSome then fs.read out else none) :: outputContents r.2 outs
    else none :: outputContents fs outs

/-- What stands for a content in the text. -/
def contentText (content : Option Bytes) : Bytes := content.elim [] blobHash

theorem storeOutputs_contents (fs : FS) (outs : List Bytes) :
    (storeOutputs fs outs).1 = (outputContents fs outs).map contentText := by
  induction outs generalizing fs with
  | nil => rfl
  | cons out outs ih =>
    unfold storeOutputs outputContents
    by_cases hex : fs.fileExists out
    · rw [if_pos hex, if_pos hex]
      dsimp only
      rw [List.map_cons, ih]
      congr 1
      rcases hc : casStoreBlobFromFile fs out with ⟨_ | h, fs₁⟩
      · rfl
      · obtain ⟨data, hread, rfl, -⟩ := casStoreBlobFromFile_some hc
        dsimp only
        rw [Option.isSome_some, if_pos rfl, hread]
        rfl
    · rw [if_neg hex, if_neg hex]
      dsimp only
      rw [List.map_cons, ih]
      rfl

/-- In a tree with its store in order these are the contents of the outputs. -/
theorem outputContents_eq (hi : StoreOk fs) {outs : List Bytes} (ho : OutsideAll fs.cwd outs) :
    outputContents fs outs = outs.map fs.read := by
  induction outs generalizing fs with
  | nil => rfl
  | cons out outs ih =>
    have ho' : OutsideAll fs.cwd outs := fun o h => ho o (List.mem_cons_of_mem _ h)
    unfold outputContents
    rw [fileExists_iff, hi.casStoreBlobFromFile]
    cases hr : fs.read out with
    | none =>
      rw [List.map_cons, hr, ih hi ho']
      rfl
    | some data =>
      have hs := hi.stores_addObject (blobHash data) data
      have hsame : outs.map (fs.addObject (blobHash data) data).read = outs.map fs.read :=
        List.map_congr_left fun o hm => hs.read_outside (ho' o hm)
      dsimp only
      rw [ih (hi.addObject data) (by rwa [hs.cwd]), List.map_cons, hr, hsame]
      rfl

/-- The text that is hashed for the outputs. -/
def outputsText (fs : FS) (task : Task) : Bytes :=
  joinStrings (sortStrings (storeOutputs fs task.outputs).1) (ascii ",")

theorem computeResultHash_ok {task' : Task} {fs' : FS}
    (h : computeResultHash fs task = .ok (task', fs')) :
    task'.resultHash = some (blobHash (outputsText fs task)) := by
  unfold computeResultHash at h
  dsimp only at h
  split at h
  · obtain ⟨rfl, -⟩ := Prod.mk.inj (Except.ok.inj h)
    rfl
  · cases h

/-- What is hashed for the result: the contents and the text. -/
def resultData (fs : FS) (task : Task) : Set Bytes :=
  {data | some data ∈ outputContents fs task.outputs ∨ data = outputsText fs task}

theorem contentText_injOn {S : Set Bytes} (hS : CollisionFree S) :
    Set.InjOn contentText {content | ∀ data ∈ content, data ∈ S} := by
  intro c hc c' hc' h
  have hne : ∀ data, blobHash data ≠ [] := fun data => (isHash_blobHash data).ne_nil
  cases c with
  | none =>
    cases c' with
    | none => rfl
    | some d' => exact absurd h.symm (hne d')
  | some d =>
    cases c' with
    | none => exact absurd h (hne d)
    | some d' => rw [blobHash_inj hS (hc d rfl) (hc' d' rfl) h]

theorem comma_notMem_contentText (content : Option Bytes) : 44 ∉ contentText content := by
  cases content with
  | none => simp [contentText]
  | some data => exact (isHash_blobHash data).notMem (by decide)

theorem outputContents_length (fs : FS) (outs : List Bytes) :
    (outputContents fs outs).length = outs.length := by
  induction outs generalizing fs with
  | nil => rfl
  | cons out outs ih =>
    unfold outputContents
    split <;> simp [ih]

/-- **What the result hash tells**: the contents of the outputs, each as often as it is there, but
not of which output it is. -/
theorem result_hash_contents (fs fs' : FS) (task t t' : Task) (fs₁ fs₁' : FS)
    (h : computeResultHash fs task = .ok (t, fs₁)) (h' : computeResultHash fs' task = .ok (t', fs₁'))
    (he : t.resultHash = t'.resultHash)
    (hcf : CollisionFree (resultData fs task ∪ resultData fs' task)) :
    (outputContents fs task.outputs).Perm (outputContents fs' task.outputs) := by
  rw [computeResultHash_ok h, computeResultHash_ok h'] at he
  have htext : outputsText fs task = outputsText fs' task :=
    blobHash_inj hcf (.inl (.inr rfl)) (.inr (.inr rfl)) (Option.some.inj he)
  have hcomma : ∀ (fs : FS) (x : Bytes),
      x ∈ sortStrings (storeOutputs fs task.outputs).1 → 44 ∉ x := by
    intro fs x hx
    rw [(sortStrings_perm _).mem_iff, storeOutputs_contents] at hx
    obtain ⟨c, -, rfl⟩ := List.mem_map.mp hx
    exact comma_notMem_contentText c
  have hlen : ∀ fs : FS, (sortStrings (storeOutputs fs task.outputs).1).length
      = task.outputs.length := by
    intro fs
    rw [(sortStrings_perm _).length_eq, storeOutputs_contents, List.length_map,
      outputContents_length]
  have hperm := sortStrings_eq_iff.mp (joinStrings_inj_of_length (hcomma fs) (hcomma fs')
    ((hlen fs).trans (hlen fs').symm) htext)
  rw [storeOutputs_contents, storeOutputs_contents] at hperm
  refine perm_of_map_injOn (contentText_injOn hcf) ?_ ?_ hperm
  · rintro c hc data rfl
    exact .inl (.inl hc)
  · rintro c hc data rfl
    exact .inr (.inl hc)

/-- Two files in a tree with an empty store, the outputs of a task. -/
def pairTree (x y : Bytes) : FS := (makeTree x).set [ascii "w", ascii "j"] (some (.file y))

def pairTask : Task := { taskNew (ascii "t") with outputs := [ascii "i", ascii "j"] }

def pairText : Bytes :=
  joinStrings (sortStrings [blobHash (ascii "1"), blobHash (ascii "2")]) (ascii ",")

theorem pairText_collisionFree : CollisionFree {ascii "1", ascii "2", pairText} := by
  have h : ([ascii "1", ascii "2", pairText].map sha256).Nodup := by
    rw [pairText, blobHash_digest (by decide), blobHash_digest (by decide),
      map_sha256 (by decide +kernel)]
    decide +kernel
  intro a ha b hb hab
  simp only [Set.mem_insert_iff, Set.mem_singleton_iff] at ha hb
  exact List.inj_on_of_nodup_map h (by simpa using ha) (by simpa using hb) hab

theorem pairText_length : pairText.length < 4096 := by
  have hhash : ∀ h ∈ sortStrings [blobHash (ascii "1"), blobHash (ascii "2")], IsHash h := by
    intro h hm
    have hm' := (sortStrings_perm _).mem_iff.mp hm
    simp only [List.mem_cons, List.not_mem_nil, or_false] at hm'
    rcases hm' with rfl | rfl <;> exact isHash_blobHash _
  unfold pairText
  rw [joinStrings_length hhash, (sortStrings_perm _).length_eq]
  decide

theorem pairTree_cwd (x y : Bytes) : (pairTree x y).cwd = [ascii "w"] := by
  unfold pairTree
  rw [FS.set_cwd, makeTree_cwd]

theorem pairTree_reads (x y : Bytes) : pairTask.outputs.map (pairTree x y).read = [some x, some y] := by
  have hi : (pairTree x y).read (ascii "i") = some x := by
    rw [← makeTree_read x]
    refine FS.read_congr ((pairTree_cwd x y).trans (makeTree_cwd x).symm) ?_
    rw [makeTree_cwd]
    exact FS.set_node_ne _ _ (by decide)
  have hj : (pairTree x y).read (ascii "j") = some y := by
    refine FS.read_of_node (by decide) ?_
    rw [pairTree_cwd]
    exact FS.set_node_self ..
  simp [pairTask, hi, hj]

/-- The result hash in either order of the two contents. -/
theorem pair_result {x y : Bytes} (hp : [x, y].Perm [ascii "1", ascii "2"]) :
    (∃ t fs₁, computeResultHash (pairTree x y) pairTask = .ok (t, fs₁) ∧
      t.resultHash = some (blobHash pairText)) ∧
      resultData (pairTree x y) pairTask ⊆ {ascii "1", ascii "2", pairText} := by
  have hi : StoreOk (pairTree x y) := by
    refine (makeTree_store x).ok.set ?_ ?_ y
    · rw [makeTree_cwd]
      decide
    · rw [makeTree_node x (by decide)]
      decide
  have ho : OutsideAll (pairTree x y).cwd pairTask.outputs := by
    rw [pairTree_cwd]
    unfold OutsideAll Inside
    decide
  have hcontents : outputContents (pairTree x y) pairTask.outputs = [some x, some y] :=
    (outputContents_eq hi ho).trans (pairTree_reads x y)
  have htext : outputsText (pairTree x y) pairTask = pairText := by
    have hsort := sortStrings_eq_iff.mpr (hp.map blobHash)
    unfold outputsText pairText
    rw [storeOutputs_contents, hcontents]
    exact congrArg (fun l => joinStrings l (ascii ",")) hsort
  refine ⟨?_, ?_⟩
  · have hres := computeResultHash_eq hi ho
    have hstored := (storeOutputs_eq hi ho).1
    have htext' : resultText (pairTree x y) pairTask = pairText := by
      rw [← htext, outputsText, hstored]
      rfl
    rw [htext', if_pos pairText_length] at hres
    exact ⟨_, _, hres, by rw [← htext']; rfl⟩
  · rintro data (hd | rfl)
    · rw [hcontents] at hd
      have hmem : data ∈ [ascii "1", ascii "2"] := hp.subset (by simpa using hd)
      simp only [List.mem_cons, List.not_mem_nil, or_false] at hmem
      rcases hmem with rfl | rfl <;> simp
    · rw [htext]
      simp

theorem result_hash_contents_pair :
    (outputContents (pairTree (ascii "1") (ascii "2")) pairTask.outputs).Perm
      (outputContents (pairTree (ascii "2") (ascii "1")) pairTask.outputs) := by
  obtain ⟨⟨t, fs₁, h, hr⟩, hd⟩ := pair_result (List.Perm.refl _)
  obtain ⟨⟨t', fs₁', h', hr'⟩, hd'⟩ := pair_result (List.Perm.swap (ascii "1") (ascii "2") [])
  exact result_hash_contents _ _ pairTask t t' fs₁ fs₁' h h' (hr.trans hr'.symm)
    (pairText_collisionFree.mono (Set.union_subset hd hd'))

/-- Two outputs that exchange their contents. -/
theorem exchanged_outputs_same_hash :
    ∃ (fs fs' : FS) (task t t' : Task) (fs₁ fs₁' : FS),
      computeResultHash fs task = .ok (t, fs₁) ∧ computeResultHash fs' task = .ok (t', fs₁') ∧
        t.resultHash = t'.resultHash ∧ CollisionFree (resultData fs task ∪ resultData fs' task) ∧
          ∃ out ∈ task.outputs, fs.read out = some (ascii "1") ∧ fs'.read out = some (ascii "2") := by
  obtain ⟨⟨t, fs₁, h, hr⟩, hd⟩ := pair_result (List.Perm.refl _)
  obtain ⟨⟨t', fs₁', h', hr'⟩, hd'⟩ := pair_result (List.Perm.swap (ascii "1") (ascii "2") [])
  have hreads := pairTree_reads (ascii "1") (ascii "2")
  have hreads' := pairTree_reads (ascii "2") (ascii "1")
  exact ⟨_, _, pairTask, t, t', fs₁, fs₁', h, h', hr.trans hr'.symm,
    pairText_collisionFree.mono (Set.union_subset hd hd'), ascii "i", by simp [pairTask],
    (List.cons.inj hreads).1, (List.cons.inj hreads').1⟩

end ReproVM
