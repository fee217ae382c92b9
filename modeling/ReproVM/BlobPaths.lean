/-
# Where blobs are read

The hash in a record is any text without a blank; `make_object_path` cuts it after two bytes, puts
both parts behind `objects_root` and looks at neither.  So each of them can be `..` or hold slashes,
and what a restore reads can lie anywhere.  The part of the path behind `objects_root` is a sequence
of moves, and its route says where it leads: `OneBelow` is the condition that it leads to a file one
directory below the root of the objects, and `load_inside_iff` is that a lookup stays there exactly
when each hash that names a file meets it.
-/
import ReproVM.CacheFaults
import ReproVM.Lib.Route

namespace ReproVM

open Bytes (ascii pieces)

variable {fs fs' : FS} {task : Task}

/-! ## 1. The path of an object -/

/-- A component of a path string, as a move. -/
def moveOf (c : Bytes) : Move Bytes :=
  if c = [] ∨ c = ascii "." then .stay else if c = ascii ".." then .up else .down c

theorem walk_eq_go (p : Path) (c : Bytes) : walk p c = Move.go p (moveOf c) := by
  rw [walk, moveOf]
  split
  · rfl
  · split <;> rfl

/-- What `make_object_path` gives for any string of three bytes or more, in a buffer of 2048. -/
def objectName (hash : Bytes) : Bytes :=
  snprintf 2048 (objectsRoot ++ 47 :: hash.take 2 ++ 47 :: hash.drop 2)

/-- The components behind `objects_root`, in what the buffer has room for. -/
def objectParts (hash : Bytes) : List Bytes :=
  pieces 47 ((hash.take 2 ++ 47 :: hash.drop 2).take 2024)

def objectRoute (hash : Bytes) : Route Bytes := .ofMoves ((objectParts hash).map moveOf)

theorem resolve_objectName (cwd : Path) (hash : Bytes) :
    resolve cwd (objectName hash) = (objectRoute hash).follow (objectsDir cwd) := by
  have hname : objectName hash
      = objectsRoot ++ 47 :: (hash.take 2 ++ 47 :: hash.drop 2).take 2024 := by
    have h22 : objectsRoot.length = 22 := by decide
    rw [objectName, snprintf, List.append_assoc, List.take_append, h22,
      List.take_of_length_le (by omega)]
    rfl
  have hwalk : (walk : Path → Bytes → Path) = fun p c => Move.go p (moveOf c) := by
    funext p c
    exact walk_eq_go p c
  rw [hname, resolve_append (by decide), resolve_objectsRoot, objectRoute, ← Route.foldl_go,
    List.foldl_map, hwalk, objectParts]

/-- The route goes down to a directory and a file in it; if it climbs, it first comes back to the
root of the objects. -/
def OneBelow (cwd : Path) (hash : Bytes) : Prop :=
  ∃ x y, (objectRoute hash).names =
    (objectsDir cwd).drop ((objectsDir cwd).length - (objectRoute hash).climb) ++ [x, y]

theorem oneBelow_iff (cwd : Path) (hash : Bytes) :
    OneBelow cwd hash ↔ ∃ x y, resolve cwd (objectName hash) = objectsDir cwd ++ [x, y] := by
  simp only [OneBelow, resolve_objectName, Route.follow_eq_append_iff]

/-- Without climbing: a directory and a file. -/
theorem oneBelow_of_climb_zero {hash : Bytes} (h : (objectRoute hash).climb = 0) (cwd : Path) :
    OneBelow cwd hash ↔ ∃ x y, (objectRoute hash).names = [x, y] := by
  simp only [OneBelow, Route.drop_of_climb_zero h, List.nil_append]

/-- What the store names its objects stays inside. -/
theorem IsHash.oneBelow {h : Bytes} (hh : IsHash h) (cwd : Path) : OneBelow cwd h := by
  have hname : objectName h = objectFile h := by
    apply List.take_of_length_le
    have h22 : objectsRoot.length = 22 := by decide
    simp [h22, hh.length]
  rw [oneBelow_iff, hname, resolve_object hh]
  exact ⟨h.take 2, h.drop 2, by simp [objectPath, objectDir]⟩

/-! ## 2. The directories of the store -/

/-- What `cas_init` leaves. -/
structure StoreDirs (fs : FS) : Prop where
  cwd : fs.node fs.cwd = some .dir
  reprovm : fs.node (reprovmDir fs.cwd) = some .dir
  cas : fs.node (casDir fs.cwd) = some .dir
  objects : fs.node (objectsDir fs.cwd) = some .dir

namespace StoreDirs

theorem node_of_mem (hs : StoreDirs fs) {p : Path}
    (hp : p ∈ [fs.cwd, reprovmDir fs.cwd, casDir fs.cwd, objectsDir fs.cwd]) :
    fs.node p = some .dir := by
  simp only [List.mem_cons, List.not_mem_nil, or_false] at hp
  rcases hp with rfl | rfl | rfl | rfl
  · exact hs.cwd
  · exact hs.reprovm
  · exact hs.cas
  · exact hs.objects

/-- No directory goes away. -/
theorem mono (hs : StoreDirs fs) (hc : fs'.cwd = fs.cwd)
    (hd : ∀ p, fs.node p = some .dir → fs'.node p = some .dir) : StoreDirs fs' where
  cwd := by rw [hc]; exact hd _ hs.cwd
  reprovm := by rw [hc]; exact hd _ hs.reprovm
  cas := by rw [hc]; exact hd _ hs.cas
  objects := by rw [hc]; exact hd _ hs.objects

/-- **`make_object_path` succeeds** on any string of three bytes or more, and makes directories in
`objects` only. -/
theorem makeObjectPath (hs : StoreDirs fs) {hash : Bytes} (hlen : 3 ≤ hash.length) :
    ∃ ps, ReproVM.makeObjectPath fs hash 2048 = (some (objectName hash), fs.addDirs ps) ∧
      ∀ p ∈ ps, fs.node p = none → ∃ x, p = objectsDir fs.cwd ++ [x] := by
  obtain ⟨a, b, hab⟩ : ∃ a b, hash.take 2 = [a, b] :=
    List.length_eq_two.mp (by rw [List.length_take]; omega)
  have hsn := snprintf_dir hash
  obtain ⟨ss, hss, hens⟩ := ensureDirRecursive_calls fs a b
  have hok : (fs.mkdirAll ss).1 = true := by
    refine FS.mkdirAll_true fun s hmem => ⟨(hss s hmem).1, ?_⟩
    rcases (hss s hmem).2 with hp | ⟨x, hx⟩
    · exact .inl (by rw [hs.node_of_mem hp]; simp)
    · exact .inr (by rw [hx, List.dropLast_concat, hs.objects])
  obtain ⟨ps, hps, hsnd, -⟩ := fs.mkdirAll_eq ss
  have hpair : fs.mkdirAll ss = (true, fs.addDirs ps) := Prod.ext hok hsnd
  refine ⟨ps, ?_, fun p hp hn => ?_⟩
  · rw [hab] at hsn
    simp only [ReproVM.makeObjectPath, if_neg (show ¬ hash.length < 3 by omega), hab, hsn, hens,
      hpair, objectName]
  · obtain ⟨s, hmem, rfl⟩ := List.mem_map.mp (hps hp)
    rcases (hss s hmem).2 with hp | hx
    · rw [hs.node_of_mem hp] at hn
      cases hn
    · exact hx

/-- A restore leaves them, whatever it writes. -/
theorem restore (hs : StoreDirs fs) (f : CopyFaults) (hash dest : Bytes) :
    StoreDirs (casRestoreBlobToFileWith f fs hash dest).2 := by
  obtain ⟨ps, -, hsnd⟩ := makeObjectPath_snd fs hash 2048
  have hadd : StoreDirs (fs.addDirs ps) :=
    hs.mono rfl fun p hp => FS.addDirs_node_of_some hp ps
  rw [casRestoreBlobToFileWith]
  rcases hm : ReproVM.makeObjectPath fs hash 2048 with ⟨_ | objPath, fs₁⟩ <;> rw [hm] at hsnd <;>
    obtain rfl := hsnd
  · exact hadd
  · dsimp only
    split
    · rw [FS.copyFileWith_eq]
      split
      · rename_i hcopy
        refine hadd.mono rfl ?_
        intro p hp
        rw [FS.set_node_ne]
        · exact hp
        · rintro rfl
          exact hcopy.2.2.2.notDir hp
      · exact hadd
    · exact hadd

end StoreDirs

/-- Whatever is there lies in a directory. -/
def FS.Grounded (fs : FS) : Prop := ∀ p c, fs.node (p ++ [c]) ≠ none → fs.node p = some .dir

/-- Something new in a directory. -/
theorem FS.Grounded.set_new (hg : fs.Grounded) {q : Path} (hq : fs.node q = none)
    (hp : fs.node q.dropLast = some .dir) (n : Node) : (fs.set q (some n)).Grounded := by
  intro p c hpc
  have hdir : fs.node p = some .dir := by
    by_cases he : p ++ [c] = q
    · rwa [← he, List.dropLast_concat] at hp
    · rw [FS.set_node_ne _ _ he] at hpc
      exact hg p c hpc
  have hne : p ≠ q := by
    rintro rfl
    rw [hdir] at hq
    cases hq
  rw [FS.set_node_ne _ _ hne, hdir]

theorem FS.Grounded.mkdirAll (hg : fs.Grounded) (ss : List Bytes) :
    (fs.mkdirAll ss).2.Grounded := by
  induction ss generalizing fs with
  | nil => exact hg
  | cons s ss ih =>
    rw [FS.mkdirAll, FS.mkdir]
    by_cases hs : s = []
    · simpa [hs] using hg
    · cases hn : fs.node (resolve fs.cwd s) with
      | some n => simpa [hs] using ih hg
      | none =>
        by_cases hp : fs.node (resolve fs.cwd s).dropLast = some .dir
        · simp only [hs, if_false, Option.isSome_none, Bool.false_eq_true, hp, if_true]
          exact ih (hg.set_new hn hp .dir)
        · simpa [hs, hp] using hg

/-- **`cas_init` leaves them**, unless `objects` was a regular file. -/
theorem casInit_storeDirs (hg : fs.Grounded)
    (hfile : ∀ d, fs.node (objectsDir fs.cwd) ≠ some (.file d))
    (h : casInit fs (ascii ".") = (true, fs')) : StoreDirs fs' := by
  obtain ⟨ps, -, hfs, hps⟩ := fs.mkdirAll_eq (objectsParents ++ [objectsRoot])
  have hg₁ := hg.mkdirAll (objectsParents ++ [objectsRoot])
  rw [casInit_eq] at h
  rcases hm : fs.mkdirAll (objectsParents ++ [objectsRoot]) with ⟨_ | _, fs₁⟩ <;>
    rw [hm] at h hfs hps hg₁
  · cases h
  · obtain rfl := hps rfl
    obtain rfl := hfs
    have hg₂ := hg₁.mkdirAll [ascii ".", ascii "./.reprovm", cacheRoot]
    obtain ⟨qs, -, hsnd, -⟩ := (fs.addDirs ((objectsParents ++ [objectsRoot]).map
      (resolve fs.cwd))).mkdirAll_eq [ascii ".", ascii "./.reprovm", cacheRoot]
    dsimp only at h
    rw [h] at hg₂ hsnd
    dsimp only at hg₂ hsnd
    have hobjects : fs'.node (objectsDir fs.cwd) = some .dir := by
      rw [hsnd]
      refine FS.addDirs_node_of_some ?_ qs
      rw [FS.addDirs_node]
      cases hn : fs.node (objectsDir fs.cwd) with
      | none => rw [if_pos ⟨rfl, by simp [resolve_objectsRoot]⟩]
      | some n =>
        cases n with
        | dir => simp
        | file d => exact absurd hn (hfile d)
    have habove : ∀ p c, fs'.node (p ++ [c]) = some .dir → fs'.node p = some .dir :=
      fun p c hpc => hg₂ p c (by simp [hpc])
    have hcas : fs'.node (casDir fs.cwd) = some .dir := habove _ _ hobjects
    have hreprovm : fs'.node (reprovmDir fs.cwd) = some .dir := habove _ _ hcas
    have hcwd : fs'.node fs.cwd = some .dir := habove _ _ hreprovm
    have hc : fs'.cwd = fs.cwd := by rw [hsnd]; rfl
    constructor <;> rw [hc] <;> assumption

/-! ## 3. One restore -/

/-- The regular file a restore opens for reading. -/
def openedBlob (f : CopyFaults) (fs : FS) (hash : Bytes) : Option Path :=
  match makeObjectPath fs hash 2048 with
  | (none, _) => none
  | (some objPath, fs) =>
    match if f.openSrc then none else fs.lookup objPath with
    | some (.file _) => some (resolve fs.cwd objPath)
    | _ => none

/-- The file is one directory below the root of the objects, and the directories made are in it. -/
structure BlobInside (f : CopyFaults) (fs : FS) (hash : Bytes) : Prop where
  opened : ∀ p, openedBlob f fs hash = some p → ∃ x y, p = objectsDir fs.cwd ++ [x, y]
  made : ∀ p, fs.node p = none → (makeObjectPath fs hash 2048).2.node p ≠ none →
    ∃ x, p = objectsDir fs.cwd ++ [x]

/-- If the hash names a file, its route leads one directory below the root of the objects. -/
def HashConfined (f : CopyFaults) (fs : FS) (hash : Bytes) : Prop :=
  3 ≤ hash.length → f.openSrc = false → (∃ data, fs.lookup (objectName hash) = some (.file data)) →
    OneBelow fs.cwd hash

/-- New directories hide no file and are none. -/
theorem lookup_addDirs_file {s data : Bytes} (ps : List Path) :
    (fs.addDirs ps).lookup s = some (.file data) ↔ fs.lookup s = some (.file data) := by
  rw [FS.lookup, FS.lookup, FS.addDirs_cwd]
  cases hn : fs.node (resolve fs.cwd s) with
  | some n => rw [FS.addDirs_node_of_some hn]
  | none =>
    rw [FS.addDirs_node, hn]
    by_cases hp : resolve fs.cwd s ∈ ps <;> simp [hp]

theorem openedBlob_eq_some (hs : StoreDirs fs) {f : CopyFaults} {hash : Bytes} {p : Path} :
    openedBlob f fs hash = some p ↔ 3 ≤ hash.length ∧ f.openSrc = false ∧
      (∃ data, fs.lookup (objectName hash) = some (.file data)) ∧
        p = resolve fs.cwd (objectName hash) := by
  rw [openedBlob]
  by_cases hlen : 3 ≤ hash.length
  · obtain ⟨ps, hm, -⟩ := hs.makeObjectPath hlen
    have hfile : ∀ data, fs.lookup (objectName hash) = some (.file data) ↔
        (fs.addDirs ps).lookup (objectName hash) = some (.file data) :=
      fun data => (lookup_addDirs_file ps).symm
    rw [hm]
    cases hopen : f.openSrc with
    | true => simp
    | false =>
      simp only [Bool.false_eq_true, if_false, FS.addDirs_cwd, true_and, hlen, hfile]
      cases (fs.addDirs ps).lookup (objectName hash) with
      | none => simp
      | some n => cases n <;> simp [eq_comm]
  · simp [makeObjectPath, show hash.length < 3 by omega, hlen]

/-- **One restore stays inside** exactly when its hash is confined. -/
theorem blobInside_iff (f : CopyFaults) (hs : StoreDirs fs) (hash : Bytes) :
    BlobInside f fs hash ↔ HashConfined f fs hash := by
  rw [HashConfined, oneBelow_iff]
  constructor
  · intro h hlen hopen hfile
    exact h.opened _ ((openedBlob_eq_some hs).mpr ⟨hlen, hopen, hfile, rfl⟩)
  · intro h
    constructor
    · intro p hp
      obtain ⟨hlen, hopen, hfile, rfl⟩ := (openedBlob_eq_some hs).mp hp
      exact h hlen hopen hfile
    · intro p hn hmade
      by_cases hlen : 3 ≤ hash.length
      · obtain ⟨ps, hm, hps⟩ := hs.makeObjectPath hlen
        rw [hm, FS.addDirs_node, hn] at hmade
        refine hps p ?_ hn
        by_contra hp
        exact hmade (if_neg fun h => hp h.2)
      · rw [makeObjectPath, if_pos (by omega)] at hmade
        exact absurd hn hmade

/-! ## 4. A lookup -/

/-- The restores of a `try_load_task_record`. -/
def loadCalls (f : LoadFaults) (fs : FS) (task : Task) : List (Bytes × Bytes) :=
  match task.taskHash with
  | none => []
  | some taskHash =>
    if ¬ fs.fileExists (metaPath taskHash) then []
    else
      match if f.openRecord then none else fs.read (metaPath taskHash) with
      | none => []
      | some content =>
        match readRecord content with
        | .error _ => []
        | .ok r => restoreCalls task.outputs r.outputs

/-- They are all it does to the tree. -/
theorem tryLoadTaskRecordWith_calls {f : LoadFaults} {ret : Int} {task' : Task}
    (h : tryLoadTaskRecordWith f fs task = .ok (ret, task', fs')) :
    fs' = restoreWith f.restore fs (loadCalls f fs task) := by
  rw [tryLoadTaskRecordWith] at h
  rw [loadCalls]
  cases hkey : task.taskHash with
  | none =>
    rw [hkey] at h
    cases h
    rfl
  | some taskHash =>
    rw [hkey] at h
    dsimp only at h ⊢
    split at h
    · rename_i hex
      rw [if_pos hex]
      cases h
      rfl
    · rename_i hex
      rw [if_neg hex]
      cases hread : (if f.openRecord then none else fs.read (metaPath taskHash)) with
      | none =>
        rw [hread] at h
        cases h
        rfl
      | some content =>
        rw [hread] at h
        dsimp only at h ⊢
        cases hrec : readRecord content with
        | error e =>
          rw [hrec] at h
          cases h
        | ok r =>
          rw [hrec] at h
          cases h
          rfl

/-- Every restore of the lookup stays inside, in the tree it finds. -/
def LoadInside (f : LoadFaults) (fs : FS) (task : Task) : Prop :=
  Along (fun f fs hash _ => BlobInside f fs hash) f.restore fs (loadCalls f fs task)

/-- Every hash it restores is confined. -/
def LoadConfined (f : LoadFaults) (fs : FS) (task : Task) : Prop :=
  Along (fun f fs hash _ => HashConfined f fs hash) f.restore fs (loadCalls f fs task)

theorem along_inside_iff (f : Nat → CopyFaults) (hs : StoreDirs fs) (calls : List (Bytes × Bytes)) :
    Along (fun f fs hash _ => BlobInside f fs hash) f fs calls ↔
      Along (fun f fs hash _ => HashConfined f fs hash) f fs calls := by
  induction calls generalizing f fs with
  | nil => exact Iff.rfl
  | cons call calls ih =>
    rw [Along, Along, blobInside_iff _ hs, ih _ (hs.restore (f 0) call.1 call.2)]

/-- **Blob reads stay inside the store**, for any record and any task, exactly when each hash that
names a file is confined. -/
theorem load_inside_iff (f : LoadFaults) (hs : StoreDirs fs) (task : Task) :
    LoadInside f fs task ↔ LoadConfined f fs task :=
  along_inside_iff f.restore hs (loadCalls f fs task)

/-- In particular where the record was written by the store. -/
theorem load_inside_of_hashes (f : LoadFaults) (hs : StoreDirs fs)
    (hh : ∀ call ∈ loadCalls f fs task, IsHash call.1) : LoadInside f fs task := by
  rw [load_inside_iff f hs]
  have hall : ∀ (calls : List (Bytes × Bytes)) (f : Nat → CopyFaults) (fs : FS),
      (∀ call ∈ calls, IsHash call.1) →
        Along (fun f fs hash _ => HashConfined f fs hash) f fs calls := by
    intro calls
    induction calls with
    | nil => exact fun _ _ _ => trivial
    | cons call calls ih =>
      intro f fs hh
      exact ⟨fun _ _ _ => (hh call List.mem_cons_self).oneBelow fs.cwd,
        ih _ _ fun c hc => hh c (List.mem_cons_of_mem _ hc)⟩
  exact hall _ _ fs hh

/-- The record of `oneOutput` names one blob. -/
def blobTree (hash : Bytes) (blob : Path) : FS :=
  ((makeTree []).set blob (some (.file (ascii "s")))).set
    [ascii "w", ascii ".reprovm", ascii "cache", ascii "k.meta"]
    (some (.file (ascii "output o " ++ hash ++ ascii "\n")))

/-- A blob of the store. -/
def insideTree : FS :=
  blobTree (ascii "abc")
    [ascii "w", ascii ".reprovm", ascii "cas", ascii "objects", ascii "ab", ascii "c"]

/-- A file in the working directory, under a hash that climbs to it. -/
def escapeTree : FS := blobTree (ascii "../../../secret") [ascii "w", ascii "secret"]

theorem insideTree_dirs : StoreDirs insideTree where
  cwd := by decide +kernel
  reprovm := by decide +kernel
  cas := by decide +kernel
  objects := by decide +kernel

theorem load_inside_insideTree : loadCalls .none insideTree oneOutput = [(ascii "abc", ascii "o")] ∧
    LoadInside .none insideTree oneOutput := by
  have hcalls : loadCalls .none insideTree oneOutput = [(ascii "abc", ascii "o")] := by
    decide +kernel
  refine ⟨hcalls, (load_inside_iff .none insideTree_dirs oneOutput).mpr ?_⟩
  rw [LoadConfined, hcalls]
  exact ⟨fun _ _ _ => (oneBelow_of_climb_zero (by decide) _).mpr
    ⟨ascii "ab", ascii "c", by decide⟩, trivial⟩

/-- **A lookup that reads a file outside the store**, into the output of the task. -/
theorem load_escapes : ¬ LoadInside .none escapeTree oneOutput ∧
    (restoreWith (fun _ => .none) escapeTree (loadCalls .none escapeTree oneOutput)).read (ascii "o")
      = some (ascii "s") := by
  have hcalls : loadCalls .none escapeTree oneOutput = [(ascii "../../../secret", ascii "o")] := by
    decide +kernel
  refine ⟨fun h => ?_, by rw [hcalls]; decide +kernel⟩
  rw [LoadInside, hcalls] at h
  have hopened : openedBlob .none escapeTree (ascii "../../../secret")
      = some [ascii "w", ascii "secret"] := by decide +kernel
  obtain ⟨x, y, hxy⟩ := h.1.opened _ hopened
  have hlen := congrArg List.length hxy
  simp [objectsDir, casDir, reprovmDir] at hlen

end ReproVM
