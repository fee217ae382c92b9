/-
# What the parts of a task do to the tree

Each part of running a task touches few places.  Storing a file only adds below the objects root
(`Stores`), and not even that when the content is there already.  A restore writes the outputs it
can (`setFiles`).  A record is one file in the cache.  These are equations: in a tree whose store
is in order (`StoreInv`) the parts are determined by what the tree reads at a few paths.
-/
import ReproVM.CasRuns
import ReproVM.Records

namespace ReproVM

open Bytes (ascii)

variable {fs fs' : FS}

/-! ## 1. Places -/

/-- Inside `.reprovm`. -/
def Inside (cwd p : Path) : Prop := reprovmDir cwd <+: p

/-- Where the record of a key lies. -/
def recordPath (cwd : Path) (key : Bytes) : Path := cacheDir cwd ++ [key ++ ascii ".meta"]

theorem inside_objects {cwd p : Path} (h : objectsDir cwd <+: p) : Inside cwd p := by
  refine List.IsPrefix.trans ?_ h
  rw [objectsDir, casDir, List.append_assoc]
  exact List.prefix_append ..

theorem inside_cacheDir (cwd : Path) : Inside cwd (cacheDir cwd) := List.prefix_append ..

theorem inside_recordPath (cwd : Path) (key : Bytes) : Inside cwd (recordPath cwd key) := by
  rw [recordPath, cacheDir, Inside, List.append_assoc]
  exact List.prefix_append ..

theorem objects_objectPath (cwd : Path) (h : Bytes) : objectsDir cwd <+: objectPath cwd h := by
  rw [objectPath_eq]
  exact List.prefix_append ..

theorem not_objects_recordPath (cwd : Path) (key : Bytes) :
    ¬ objectsDir cwd <+: recordPath cwd key := by
  rintro ⟨q, hq⟩
  rw [recordPath, cacheDir, objectsDir, casDir, List.append_assoc, List.append_assoc,
    List.append_assoc, List.append_cancel_left_eq] at hq
  exact absurd (List.cons.inj hq).1 (by decide)

theorem recordPath_ne_objectPath (cwd : Path) (key h : Bytes) :
    recordPath cwd key ≠ objectPath cwd h :=
  fun he => not_objects_recordPath cwd key (he ▸ objects_objectPath cwd h)

theorem cacheDir_ne_recordPath (cwd : Path) (key : Bytes) : cacheDir cwd ≠ recordPath cwd key := by
  simp [recordPath]

theorem recordPath_inj {cwd : Path} {k k' : Bytes} (h : recordPath cwd k = recordPath cwd k') :
    k = k' := by
  rw [recordPath, recordPath, List.append_cancel_left_eq] at h
  exact List.append_cancel_right (List.cons.inj h).1

theorem metaPath_eq {key : Bytes} (hk : IsHash key) :
    metaPath key = cacheRoot ++ 47 :: (key ++ ascii ".meta") := by
  rw [metaPath, snprintf, List.take_of_length_le]
  · simp
  · have h1 : cacheRoot.length = 16 := by decide
    have h2 : (ascii ".meta").length = 5 := by decide
    simp [h1, h2, hk.length]

theorem isName_record {key : Bytes} (hk : IsHash key) : IsName (key ++ ascii ".meta") :=
  hk.isName (fun _ hx => hx) hk.ne_nil (by decide)

theorem resolve_metaPath {key : Bytes} (hk : IsHash key) (cwd : Path) :
    resolve cwd (metaPath key) = recordPath cwd key := by
  rw [metaPath_eq hk, resolve_name (by decide) (isName_record hk), resolve_cacheRoot, recordPath]

theorem namesDir_metaPath {key : Bytes} (hk : IsHash key) : namesDir (metaPath key) = false := by
  rw [metaPath_eq hk]
  exact namesDir_name (isName_record hk)

theorem lookup_metaPath {key : Bytes} (hk : IsHash key) (fs : FS) :
    fs.lookup (metaPath key) = fs.node (recordPath fs.cwd key) := by
  rw [FS.lookup, if_neg (FS.ne_nil_of_namesDir (namesDir_metaPath hk)), resolve_metaPath hk,
    namesDir_metaPath hk]
  split
  · rename_i he
    exact he.symm
  · rfl

theorem objectFile_ne_metaPath {h key : Bytes} (hh : IsHash h) (hk : IsHash key) :
    objectFile h ≠ metaPath key := by
  intro he
  have hres := congrArg (resolve []) he
  rw [resolve_object hh, resolve_metaPath hk] at hres
  exact recordPath_ne_objectPath _ _ _ hres.symm

/-- A file in the cache can be written where the cache is a directory. -/
theorem writable_metaPath {key : Bytes} (hk : IsHash key) (hcache : fs.node (cacheDir fs.cwd) = some .dir)
    (hd : fs.node (recordPath fs.cwd key) ≠ some .dir) : fs.Writable (metaPath key) := by
  refine ⟨namesDir_metaPath hk, ?_, ?_⟩ <;> rw [resolve_metaPath hk]
  · exact hd
  · rwa [recordPath, List.dropLast_concat]

/-! ## 2. Storing -/

/-- Nothing that is there changes, and what is added lies below the objects root. -/
structure Stores (fs fs' : FS) : Prop where
  cwd : fs'.cwd = fs.cwd
  keep : ∀ p n, fs.node p = some n → fs'.node p = some n
  elsewhere : ∀ p, ¬ objectsDir fs.cwd <+: p → fs'.node p = fs.node p

namespace Stores

theorem refl (fs : FS) : Stores fs fs := ⟨rfl, fun _ _ h => h, fun _ _ => rfl⟩

theorem trans {fs₁ fs₂ fs₃ : FS} (h : Stores fs₁ fs₂) (h' : Stores fs₂ fs₃) : Stores fs₁ fs₃ where
  cwd := h'.cwd.trans h.cwd
  keep p n hp := h'.keep p n (h.keep p n hp)
  elsewhere p hp := (h'.elsewhere p (by rwa [h.cwd])).trans (h.elsewhere p hp)

theorem outside (h : Stores fs fs') {p : Path} (hp : ¬ Inside fs.cwd p) : fs'.node p = fs.node p :=
  h.elsewhere p fun hobj => hp (inside_objects hobj)

/-- What could be read is read the same. -/
theorem read (h : Stores fs fs') {s data : Bytes} (hr : fs.read s = some data) :
    fs'.read s = some data := by
  obtain ⟨n, hn⟩ := Option.ne_none_iff_exists'.mp (FS.node_ne_none_of_read hr)
  rw [← hr]
  exact FS.read_congr h.cwd (by rw [hn, h.keep _ _ hn])

/-- What lies outside is read the same. -/
theorem read_outside (h : Stores fs fs') {s : Bytes} (hs : ¬ Inside fs.cwd (resolve fs.cwd s)) :
    fs'.read s = fs.read s :=
  FS.read_congr h.cwd (h.outside hs)

end Stores

theorem StoreInv.stores_addDirs {S : Set Bytes} (hi : StoreInv S fs) {ps : List Path}
    (hps : ∀ p ∈ ps, StorePlace fs.cwd p) : Stores fs (fs.addDirs ps) where
  cwd := rfl
  keep p n hp := FS.addDirs_node_of_some hp ps
  elsewhere p hp := by
    rw [FS.addDirs_node]
    split
    · rename_i hnew
      rcases hps p hnew.2 with hm | ⟨x, rfl⟩
      · simp only [List.mem_cons, List.not_mem_nil, or_false] at hm
        rcases hm with rfl | rfl | rfl | rfl
        · rw [hi.cwd] at hnew
          exact absurd hnew.1 (by simp)
        · rw [hi.reprovm] at hnew
          exact absurd hnew.1 (by simp)
        · rw [hi.cas] at hnew
          exact absurd hnew.1 (by simp)
        · rw [hi.objects] at hnew
          exact absurd hnew.1 (by simp)
      · exact absurd (List.prefix_append ..) hp
    · rfl

theorem StoreInv.stores_addObject {S : Set Bytes} (hi : StoreInv S fs) (h data : Bytes) :
    Stores fs (fs.addObject h data) where
  cwd := FS.addObject_cwd ..
  keep p n hp := FS.addObject_node_of_some hp ..
  elsewhere p hp := by
    have hne : p ≠ objectPath fs.cwd h := by
      rintro rfl
      exact hp (objects_objectPath ..)
    unfold FS.addObject
    split
    · rw [FS.set_node_ne _ _ hne]
      exact (hi.stores_addDirs (storePlace_storeDirs fs.cwd h)).elsewhere p hp
    · exact (hi.stores_addDirs (storePlace_storeDirs fs.cwd h)).elsewhere p hp

/-- The content is in the store, or another one with its hash. -/
def InStore (fs : FS) (data : Bytes) : Prop := fs.node (objectPath fs.cwd (blobHash data)) ≠ none

theorem InStore.stores {data : Bytes} (h : InStore fs data) (hs : Stores fs fs') :
    InStore fs' data := by
  obtain ⟨n, hn⟩ := Option.ne_none_iff_exists'.mp h
  rw [InStore, hs.cwd, hs.keep _ _ hn]
  simp

theorem inStore_addObject (fs : FS) (data : Bytes) : InStore (fs.addObject (blobHash data) data) data := by
  rw [InStore, FS.addObject_cwd]
  cases hn : fs.node (objectPath fs.cwd (blobHash data)) with
  | none =>
    rw [FS.addObject_node_object hn]
    simp
  | some n =>
    rw [FS.addObject_node_of_some hn]
    simp

/-- An object lies in its directory, and is a content with the hash it is named by. -/
theorem StoreInv.object {S : Set Bytes} (hi : StoreInv S fs) {h : Bytes} {n : Node}
    (hn : fs.node (objectPath fs.cwd h) = some n) :
    ∃ data ∈ S, n = .file data ∧ blobHash data = h ∧ fs.node (objectDir fs.cwd h) = some .dir := by
  have hp := objectPath_eq fs.cwd h
  rw [hp] at hn
  rcases hi.below _ _ hn with ⟨-, hlen⟩ | ⟨data, hd, hf, he, hdir⟩
  · simp at hlen
  · rw [← hp] at he
    have hh := objectPath_inj he
    exact ⟨data, hd, hf, hh.symm, hh ▸ hdir⟩

/-- **Storing what is there** does nothing. -/
theorem StoreInv.addObject_inStore {S : Set Bytes} (hi : StoreInv S fs) {data : Bytes}
    (h : InStore fs data) : fs.addObject (blobHash data) data = fs := by
  obtain ⟨n, hn⟩ := Option.ne_none_iff_exists'.mp h
  obtain ⟨-, -, -, -, hdir⟩ := hi.object hn
  rw [FS.addObject, if_neg h]
  exact hi.ready.addDirs_same hdir

/-- **Storing a file.** -/
theorem StoreInv.casStoreBlobFromFile {S : Set Bytes} (hi : StoreInv S fs) (path : Bytes) :
    casStoreBlobFromFile fs path =
      match fs.read path with
      | none => (none, fs)
      | some data => (some (blobHash data), fs.addObject (blobHash data) data) := by
  rcases casStoreBlobFromFile_cases fs path with ⟨hr, he⟩ | ⟨data, hr, he | ⟨hn, -⟩⟩
  · rw [hr, he]
  · rw [hr, he]
  · exact absurd hi.ready hn

/-- The store in order, whatever the contents. -/
abbrev StoreOk (fs : FS) : Prop := StoreInv Set.univ fs

theorem StoreOk.addObject (hi : StoreOk fs) (data : Bytes) :
    StoreOk (fs.addObject (blobHash data) data) :=
  (StoreInv.addObject hi data).mono (Set.subset_univ _)

theorem StoreInv.ok {S : Set Bytes} (hi : StoreInv S fs) : StoreOk fs := hi.mono (Set.subset_univ S)

theorem StoreInv.addObject_mem {S : Set Bytes} (hi : StoreInv S fs) {data : Bytes} (hd : data ∈ S) :
    StoreInv S (fs.addObject (blobHash data) data) := by
  refine (hi.addObject data).mono (Set.union_subset subset_rfl ?_)
  rintro d rfl
  exact hd

/-! ## 3. Hashing the inputs -/

/-- The hash of what is read at a path. -/
def hashAt (fs : FS) (path : Bytes) : Bytes := ((fs.read path).map blobHash).getD []

/-- The file can be read and is in the store. -/
def Hashed (fs : FS) (path : Bytes) : Prop := ∃ data, fs.read path = some data ∧ InStore fs data

theorem Hashed.stores {path : Bytes} (h : Hashed fs path) (hs : Stores fs fs') : Hashed fs' path := by
  obtain ⟨data, hr, hin⟩ := h
  exact ⟨data, hs.read hr, hin.stores hs⟩

theorem hashAt_stores {path data : Bytes} (hr : fs.read path = some data) (hs : Stores fs fs') :
    hashAt fs' path = blobHash data := by
  rw [hashAt, hs.read hr]
  rfl

/-- What the loop over the inputs does to the tree, whether it gets to the end or not. -/
theorem storeInputs_stores (hi : StoreOk fs) (paths : List Bytes) :
    Stores fs (storeInputs fs paths).2 ∧ StoreOk (storeInputs fs paths).2 ∧
      ∀ S, StoreInv S fs →
        (∀ p ∈ paths, ∀ data, (storeInputs fs paths).2.read p = some data → data ∈ S) →
        StoreInv S (storeInputs fs paths).2 := by
  induction paths generalizing fs with
  | nil => exact ⟨.refl fs, hi, fun _ h _ => h⟩
  | cons path paths ih =>
    rw [storeInputs, hi.casStoreBlobFromFile]
    cases hr : fs.read path with
    | none => exact ⟨.refl fs, hi, fun _ h _ => h⟩
    | some data =>
      dsimp only
      have h1 := hi.stores_addObject (blobHash data) data
      obtain ⟨h2, h3, h4⟩ := ih (hi.addObject data)
      rcases hrun : storeInputs (fs.addObject (blobHash data) data) paths with ⟨_ | hs, fs'⟩ <;>
        rw [hrun] at h2 h3 h4 <;>
        exact ⟨h1.trans h2, h3, fun S hS hmem =>
          h4 S (hS.addObject_mem (hmem path List.mem_cons_self data ((h1.trans h2).read hr)))
            fun p hp => hmem p (List.mem_cons_of_mem _ hp)⟩

/-- **The hashes of the inputs** are those of what they read afterwards. -/
theorem storeInputs_some (hi : StoreOk fs) {paths hs : List Bytes}
    (h : storeInputs fs paths = (some hs, fs')) :
    hs = paths.map (hashAt fs') ∧ ∀ p ∈ paths, Hashed fs' p := by
  induction paths generalizing fs hs with
  | nil =>
    obtain ⟨h1, -⟩ := Prod.mk.inj h
    exact ⟨(Option.some.inj h1).symm, by simp⟩
  | cons path paths ih =>
    rw [storeInputs, hi.casStoreBlobFromFile] at h
    cases hr : fs.read path with
    | none =>
      rw [hr] at h
      cases h
    | some data =>
      rw [hr] at h
      dsimp only at h
      have hstores := (storeInputs_stores (hi.addObject data) paths).1
      rcases hrun : storeInputs (fs.addObject (blobHash data) data) paths with ⟨_ | ys, fs1⟩ <;>
        rw [hrun] at h hstores
      · cases h
      · obtain ⟨h1, rfl⟩ := Prod.mk.inj h
        obtain rfl := Option.some.inj h1
        obtain ⟨rfl, hall⟩ := ih (hi.addObject data) hrun
        have hread := (hi.stores_addObject (blobHash data) data).read hr
        refine ⟨by rw [List.map_cons, hashAt_stores hread hstores], fun p hp => ?_⟩
        rcases List.mem_cons.mp hp with rfl | hp
        · exact Hashed.stores ⟨data, hread, inStore_addObject fs data⟩ hstores
        · exact hall p hp

/-- Inputs that can all be read are all hashed. -/
theorem storeInputs_total (hi : StoreOk fs) {paths : List Bytes}
    (h : ∀ p ∈ paths, fs.read p ≠ none) : ∃ hs fs', storeInputs fs paths = (some hs, fs') := by
  induction paths generalizing fs with
  | nil => exact ⟨[], fs, rfl⟩
  | cons path paths ih =>
    obtain ⟨data, hr⟩ := Option.ne_none_iff_exists'.mp (h path List.mem_cons_self)
    have hstores := hi.stores_addObject (blobHash data) data
    obtain ⟨hs, fs', hrun⟩ := ih (hi.addObject data) fun p hp => by
      obtain ⟨d, hd⟩ := Option.ne_none_iff_exists'.mp (h p (List.mem_cons_of_mem _ hp))
      rw [hstores.read hd]
      simp
    refine ⟨blobHash data :: hs, fs', ?_⟩
    rw [storeInputs, hi.casStoreBlobFromFile, hr]
    dsimp only
    rw [hrun]

/-- **Hashing again** what is in the store does nothing. -/
theorem storeInputs_hashed (hi : StoreOk fs) {paths : List Bytes} (h : ∀ p ∈ paths, Hashed fs p) :
    storeInputs fs paths = (some (paths.map (hashAt fs)), fs) := by
  induction paths with
  | nil => rfl
  | cons path paths ih =>
    obtain ⟨data, hr, hin⟩ := h path List.mem_cons_self
    rw [storeInputs, hi.casStoreBlobFromFile, hr]
    dsimp only
    rw [hi.addObject_inStore hin, ih fun p hp => h p (List.mem_cons_of_mem _ hp), List.map_cons,
      hashAt, hr]
    rfl

/-! ## 4. Hashing the outputs -/

/-- The entries a record has for the outputs: those that can be read. -/
def outputEntries (fs : FS) (outputs : List Bytes) : List (Bytes × Bytes) :=
  outputs.filterMap fun out => (fs.read out).map fun data => (out, blobHash data)

theorem fileExists_iff (fs : FS) (s : Bytes) : fs.fileExists s = (fs.read s).isSome := by
  rw [FS.fileExists, FS.read]
  cases fs.lookup s with
  | none => rfl
  | some n => cases n <;> rfl

/-- What the outputs read is not changed by storing. -/
def OutsideAll (cwd : Path) (outputs : List Bytes) : Prop :=
  ∀ out ∈ outputs, ¬ Inside cwd (resolve cwd out)

theorem Stores.hashAt_outside (h : Stores fs fs') {s : Bytes}
    (hs : ¬ Inside fs.cwd (resolve fs.cwd s)) : hashAt fs' s = hashAt fs s := by
  rw [hashAt, hashAt, h.read_outside hs]

/-- **The hashes of the outputs.** -/
theorem storeOutputs_eq (hi : StoreOk fs) {outputs : List Bytes} (ho : OutsideAll fs.cwd outputs) :
    (storeOutputs fs outputs).1 = outputs.map (hashAt fs) ∧
      Stores fs (storeOutputs fs outputs).2 ∧ StoreOk (storeOutputs fs outputs).2 ∧
      ∀ S, StoreInv S fs → (∀ out ∈ outputs, ∀ data, fs.read out = some data → data ∈ S) →
        StoreInv S (storeOutputs fs outputs).2 := by
  induction outputs generalizing fs with
  | nil => exact ⟨rfl, .refl fs, hi, fun _ h _ => h⟩
  | cons out outputs ih =>
    have ho' : OutsideAll fs.cwd outputs := fun o h => ho o (List.mem_cons_of_mem _ h)
    rw [storeOutputs, fileExists_iff, hi.casStoreBlobFromFile]
    cases hr : fs.read out with
    | none =>
      obtain ⟨h1, h2, h3, h4⟩ := ih hi ho'
      simp only [Option.isSome_none, Bool.false_eq_true, if_false]
      refine ⟨by rw [h1, List.map_cons, hashAt, hr]; rfl, h2, h3, fun S hS hmem => ?_⟩
      exact h4 S hS fun o h => hmem o (List.mem_cons_of_mem _ h)
    | some data =>
      have hstores := hi.stores_addObject (blobHash data) data
      obtain ⟨h1, h2, h3, h4⟩ := ih (hi.addObject data) (by rwa [FS.addObject_cwd])
      simp only [Option.isSome_some, if_true]
      refine ⟨?_, hstores.trans h2, h3, fun S hS hmem => ?_⟩
      · rw [h1, List.map_cons, hashAt, hr]
        congr 1
        exact List.map_congr_left fun o h => hstores.hashAt_outside (ho' o h)
      · refine h4 S (hS.addObject_mem (hmem out List.mem_cons_self data hr)) fun o h d hd => ?_
        exact hmem o (List.mem_cons_of_mem _ h) d
          ((hstores.read_outside (ho' o h)).symm.trans hd)

/-! ## 5. Writing files outside -/

/-- Only files outside `.reprovm` differ: no directory comes or goes. -/
structure FilesOnly (fs fs' : FS) : Prop where
  cwd : fs'.cwd = fs.cwd
  dir : ∀ p, fs'.node p = some .dir ↔ fs.node p = some .dir
  inside : ∀ p, Inside fs.cwd p → fs'.node p = fs.node p

namespace FilesOnly

theorem refl (fs : FS) : FilesOnly fs fs := ⟨rfl, fun _ => Iff.rfl, fun _ _ => rfl⟩

theorem trans {fs₁ fs₂ fs₃ : FS} (h : FilesOnly fs₁ fs₂) (h' : FilesOnly fs₂ fs₃) :
    FilesOnly fs₁ fs₃ where
  cwd := h'.cwd.trans h.cwd
  dir p := (h'.dir p).trans (h.dir p)
  inside p hp := (h'.inside p (by rwa [h.cwd])).trans (h.inside p hp)

theorem set {p : Path} (hp : ¬ Inside fs.cwd p) (hd : fs.node p ≠ some .dir) (data : Bytes) :
    FilesOnly fs (fs.set p (some (.file data))) where
  cwd := rfl
  dir q := by
    by_cases hq : q = p
    · subst hq
      simp [hd]
    · rw [FS.set_node_ne _ _ hq]
  inside q hq := by
    rw [FS.set_node_ne _ _ (by rintro rfl; exact hp hq)]

theorem writable_iff (h : FilesOnly fs fs') (s : Bytes) : fs'.Writable s ↔ fs.Writable s :=
  FS.writable_congr h.cwd (h.dir _) (h.dir _)

theorem editOutside (h : FilesOnly fs fs') (hcwd : fs.node fs.cwd = some .dir) :
    EditOutside fs fs' where
  cwd := h.cwd
  dir := by rw [hcwd, (h.dir fs.cwd).mpr hcwd]
  inside q := h.inside _ (List.prefix_append ..)

theorem storeInv {S : Set Bytes} (h : FilesOnly fs fs') (hi : StoreInv S fs) : StoreInv S fs' :=
  hi.edit (h.editOutside hi.cwd)

/-- The store and the records are as they were. -/
theorem object (h : FilesOnly fs fs') (x : Bytes) :
    fs'.node (objectPath fs.cwd x) = fs.node (objectPath fs.cwd x) :=
  h.inside _ (inside_objects (objects_objectPath ..))

theorem record (h : FilesOnly fs fs') (key : Bytes) :
    fs'.node (recordPath fs.cwd key) = fs.node (recordPath fs.cwd key) :=
  h.inside _ (inside_recordPath ..)

end FilesOnly

/-- Files written one after the other. -/
def FS.setFiles (fs : FS) (ws : List (Path × Bytes)) : FS :=
  ws.foldl (fun fs w => fs.set w.1 (some (.file w.2))) fs

/-- What is written to a place last. -/
def lastWrite (p : Path) : List (Path × Bytes) → Option Bytes
  | [] => none
  | w :: ws => (lastWrite p ws).or (if w.1 = p then some w.2 else none)

theorem FS.setFiles_cwd (fs : FS) (ws : List (Path × Bytes)) : (fs.setFiles ws).cwd = fs.cwd := by
  induction ws generalizing fs with
  | nil => rfl
  | cons w ws ih => exact ih (fs.set w.1 _)

theorem FS.setFiles_node (fs : FS) (ws : List (Path × Bytes)) (p : Path) :
    (fs.setFiles ws).node p = ((lastWrite p ws).map Node.file).or (fs.node p) := by
  induction ws generalizing fs with
  | nil => rfl
  | cons w ws ih =>
    have h := ih (fs.set w.1 (some (.file w.2)))
    rw [FS.setFiles, List.foldl_cons, ← FS.setFiles, h, lastWrite]
    cases lastWrite p ws with
    | some d => rfl
    | none =>
      by_cases hw : w.1 = p
      · subst hw
        simp
      · simp [FS.set_node_ne _ _ (Ne.symm hw), hw]

theorem lastWrite_mem {p : Path} {ws : List (Path × Bytes)} {d : Bytes} (h : lastWrite p ws = some d) :
    (p, d) ∈ ws := by
  induction ws with
  | nil => cases h
  | cons w ws ih =>
    rw [lastWrite] at h
    cases hl : lastWrite p ws with
    | some d' =>
      rw [hl] at h
      exact List.mem_cons_of_mem _ (ih (hl.trans h))
    | none =>
      rw [hl, Option.none_or] at h
      split at h
      · rename_i hw
        obtain rfl := Option.some.inj h
        subst hw
        exact List.mem_cons_self
      · cases h

theorem lastWrite_isSome {p : Path} {ws : List (Path × Bytes)} {d : Bytes} (h : (p, d) ∈ ws) :
    ∃ d', lastWrite p ws = some d' := by
  induction ws with
  | nil => cases h
  | cons w ws ih =>
    rw [lastWrite]
    rcases List.mem_cons.mp h with rfl | h
    · cases lastWrite p ws with
      | some d' => exact ⟨d', rfl⟩
      | none => exact ⟨d, by simp⟩
    · obtain ⟨d', hd⟩ := ih h
      exact ⟨d', by rw [hd]; rfl⟩

/-- Writing what is there. -/
theorem FS.setFiles_same {ws : List (Path × Bytes)}
    (h : ∀ p d, lastWrite p ws = some d → fs.node p = some (.file d)) : fs.setFiles ws = fs := by
  ext p
  · rw [FS.setFiles_cwd]
  · rw [FS.setFiles_node]
    cases hl : lastWrite p ws with
    | none => rfl
    | some d => simp [h p d hl]

theorem FilesOnly.setFiles {ws : List (Path × Bytes)}
    (h : ∀ w ∈ ws, ¬ Inside fs.cwd w.1 ∧ fs.node w.1 ≠ some .dir) : FilesOnly fs (fs.setFiles ws) where
  cwd := FS.setFiles_cwd fs ws
  dir p := by
    rw [FS.setFiles_node]
    cases hl : lastWrite p ws with
    | none => rfl
    | some d => simpa using (h _ (lastWrite_mem hl)).2
  inside p hp := by
    rw [FS.setFiles_node]
    cases hl : lastWrite p ws with
    | none => rfl
    | some d => exact absurd hp (h _ (lastWrite_mem hl)).1

/-! ## 6. Restoring the outputs -/

/-- A blob that a record can name. -/
def Intact (fs : FS) (h : Bytes) : Prop :=
  IsHash h ∧ ∃ data, fs.node (objectPath fs.cwd h) = some (.file data)

def blobAt (fs : FS) (h : Bytes) : Bytes :=
  match fs.node (objectPath fs.cwd h) with
  | some (.file data) => data
  | _ => []

/-- **Restoring an intact blob** writes it, where the destination can be written. -/
theorem casRestoreBlobToFile_intact (hi : StoreOk fs) {h dest : Bytes} (hh : Intact fs h)
    (ho : ¬ Inside fs.cwd (resolve fs.cwd dest)) :
    (casRestoreBlobToFile fs h dest).2 =
      if fs.Writable dest then fs.set (resolve fs.cwd dest) (some (.file (blobAt fs h))) else fs := by
  obtain ⟨hash, data, hobj⟩ := hh
  have hblob : blobAt fs h = data := by rw [blobAt, hobj]
  obtain ⟨-, -, -, -, hdir⟩ := hi.object hobj
  split
  · rename_i hw
    rw [casRestoreBlobToFile_object hi.ready hash hdir hobj hw, hblob]
    intro he
    exact ho (he ▸ inside_objects (objects_objectPath ..))
  · rename_i hw
    rw [casRestoreBlobToFile, hi.ready.makeObjectPath hash, hi.ready.addDirs_same hdir]
    simp only [fileExists_objectFile hash, hobj, Option.isSome_some, if_true]
    rw [FS.copyFile_eq, if_neg fun h => hw h.2]

/-- A file that can be written is there as it is read. -/
theorem FS.node_of_read {s data : Bytes} (hw : fs.Writable s) (hr : fs.read s = some data) :
    fs.node (resolve fs.cwd s) = some (.file data) := by
  rw [FS.read, FS.lookup, if_neg (FS.ne_nil_of_namesDir hw.name)] at hr
  cases hn : fs.node (resolve fs.cwd s) with
  | none => simp [hn] at hr
  | some n =>
    cases n with
    | dir => exact absurd hn hw.notDir
    | file d =>
      simp only [hn, hw.name, Bool.false_eq_true, if_false, Option.some.injEq] at hr
      rw [hr]

theorem FS.read_of_node {s data : Bytes} (hs : namesDir s = false)
    (hn : fs.node (resolve fs.cwd s) = some (.file data)) : fs.read s = some data := by
  rw [FS.read, FS.lookup, if_neg (FS.ne_nil_of_namesDir hs), hn]
  simp [hs]

/-- The blob of an intact hash has this hash. -/
theorem blobHash_blobAt (hi : StoreOk fs) {h : Bytes} (hh : Intact fs h) :
    blobHash (blobAt fs h) = h := by
  obtain ⟨-, data, hobj⟩ := hh
  obtain ⟨d, -, he, hhash, -⟩ := hi.object hobj
  cases he
  rw [blobAt, hobj, hhash]

/-- What a blob reads does not depend on the files outside. -/
theorem FilesOnly.blobAt_eq (h : FilesOnly fs fs') (x : Bytes) : blobAt fs' x = blobAt fs x := by
  rw [blobAt, blobAt, h.cwd, h.object x]

theorem Intact.filesOnly {x : Bytes} (hx : Intact fs x) (h : FilesOnly fs fs') : Intact fs' x := by
  obtain ⟨hash, data, hobj⟩ := hx
  exact ⟨hash, data, by rw [h.cwd, h.object x, hobj]⟩

/-- The writes that restoring the entries of a record makes. -/
def restoreWrites (fs : FS) (outputs : List Bytes) (entries : List (Bytes × Bytes)) :
    List (Path × Bytes) :=
  entries.flatMap fun entry =>
    (outputs.filter fun out => out = entry.1 ∧ fs.Writable out).map fun out =>
      (resolve fs.cwd out, blobAt fs entry.2)

theorem restoreWrites_filesOnly (h : FilesOnly fs fs') (outputs : List Bytes)
    (entries : List (Bytes × Bytes)) :
    restoreWrites fs' outputs entries = restoreWrites fs outputs entries := by
  simp only [restoreWrites, h.cwd, h.blobAt_eq, h.writable_iff]

theorem mem_restoreWrites {outputs : List Bytes} {entries : List (Bytes × Bytes)} {w : Path × Bytes} :
    w ∈ restoreWrites fs outputs entries ↔ ∃ entry ∈ entries, entry.1 ∈ outputs ∧
      fs.Writable entry.1 ∧ w = (resolve fs.cwd entry.1, blobAt fs entry.2) := by
  simp only [restoreWrites, List.mem_flatMap, List.mem_map, List.mem_filter, decide_eq_true_eq]
  constructor
  · rintro ⟨entry, he, out, ⟨ho, rfl, hw⟩, rfl⟩
    exact ⟨entry, he, ho, hw, rfl⟩
  · rintro ⟨entry, he, ho, hw, rfl⟩
    exact ⟨entry, he, entry.1, ⟨ho, rfl, hw⟩, rfl⟩

theorem filesOnly_restoreWrites {outputs : List Bytes} (ho : OutsideAll fs.cwd outputs)
    (entries : List (Bytes × Bytes)) :
    FilesOnly fs (fs.setFiles (restoreWrites fs outputs entries)) := by
  refine FilesOnly.setFiles fun w hw => ?_
  obtain ⟨entry, -, hout, hwr, rfl⟩ := mem_restoreWrites.mp hw
  exact ⟨ho _ hout, hwr.notDir⟩

theorem FS.setFiles_append (fs : FS) (ws ws' : List (Path × Bytes)) :
    fs.setFiles (ws ++ ws') = (fs.setFiles ws).setFiles ws' :=
  List.foldl_append ..

/-- One entry. -/
theorem restoreOutput_eq (hi : StoreOk fs) {outputs : List Bytes} (ho : OutsideAll fs.cwd outputs)
    {entry : Bytes × Bytes} (hh : Intact fs entry.2) :
    restoreOutput fs outputs entry = fs.setFiles (restoreWrites fs outputs [entry]) := by
  have hsingle : restoreWrites fs outputs [entry] =
      (outputs.filter fun out => out = entry.1 ∧ fs.Writable out).map fun out =>
        (resolve fs.cwd out, blobAt fs entry.2) := by
    simp [restoreWrites]
  rw [hsingle]
  clear hsingle
  induction outputs generalizing fs with
  | nil => rfl
  | cons out outputs ih =>
    have ho' : OutsideAll fs.cwd outputs := fun o h => ho o (List.mem_cons_of_mem _ h)
    rw [restoreOutput, List.foldl_cons, ← restoreOutput]
    by_cases hout : out = entry.1
    · rw [if_pos hout, casRestoreBlobToFile_intact hi hh (ho out List.mem_cons_self)]
      by_cases hw : fs.Writable out
      · have hfo := FilesOnly.set (ho out List.mem_cons_self) hw.notDir (blobAt fs entry.2)
        rw [if_pos hw, List.filter_cons_of_pos (by simp [hout, hout ▸ hw]), List.map_cons,
          ih (hfo.storeInv hi) ho' (hh.filesOnly hfo)]
        simp only [hfo.writable_iff, hfo.blobAt_eq, FS.set_cwd]
        rfl
      · rw [if_neg hw, List.filter_cons_of_neg (by simp [hw]), ih hi ho' hh]
    · rw [if_neg hout, List.filter_cons_of_neg (by simp [hout]), ih hi ho' hh]

/-- **Restoring the outputs.** -/
theorem restoreOutputs_eq (hi : StoreOk fs) {outputs : List Bytes} (ho : OutsideAll fs.cwd outputs)
    {entries : List (Bytes × Bytes)} (hh : ∀ entry ∈ entries, Intact fs entry.2) :
    entries.foldl (fun fs entry => restoreOutput fs outputs entry) fs
      = fs.setFiles (restoreWrites fs outputs entries) := by
  induction entries generalizing fs with
  | nil => rfl
  | cons entry entries ih =>
    have hfo := filesOnly_restoreWrites ho [entry]
    rw [List.foldl_cons, restoreOutput_eq hi ho (hh entry List.mem_cons_self),
      ih (hfo.storeInv hi) (by rwa [hfo.cwd])
        (fun e he => (hh e (List.mem_cons_of_mem _ he)).filesOnly hfo),
      restoreWrites_filesOnly hfo, ← FS.setFiles_append]
    congr 1
    simp [restoreWrites]

/-! ## 7. Writing the record -/

theorem FS.addObject_set (fs : FS) (p : Path) (n : Node) (h data : Bytes) :
    (fs.set p (some n)).addObject h data = (fs.addObject h data).set p (some n) := by
  ext : 1
  · simp
  · funext q
    rw [FS.addObject_node]
    by_cases hq : q = p
    · subst hq
      simp
    · rw [FS.set_node_ne _ _ hq, FS.set_node_ne _ _ hq, FS.addObject_node, FS.set_cwd]

/-- The tree after the outputs were stored. -/
def storeAll (fs : FS) (outputs : List Bytes) : FS :=
  outputs.foldl (fun fs out => (casStoreBlobFromFile fs out).2) fs

theorem storeAll_cons (hi : StoreOk fs) (out : Bytes) (outputs : List Bytes) :
    storeAll fs (out :: outputs) =
      match fs.read out with
      | none => storeAll fs outputs
      | some data => storeAll (fs.addObject (blobHash data) data) outputs := by
  rw [storeAll, List.foldl_cons, ← storeAll, hi.casStoreBlobFromFile]
  cases fs.read out <;> rfl

/-- What storing the outputs does. -/
theorem storeAll_stores (hi : StoreOk fs) {outputs : List Bytes} (ho : OutsideAll fs.cwd outputs) :
    Stores fs (storeAll fs outputs) ∧ StoreOk (storeAll fs outputs) ∧
      (∀ entry ∈ outputEntries fs outputs, Intact (storeAll fs outputs) entry.2) ∧
      ∀ S, StoreInv S fs → (∀ out ∈ outputs, ∀ data, fs.read out = some data → data ∈ S) →
        StoreInv S (storeAll fs outputs) := by
  induction outputs generalizing fs with
  | nil => exact ⟨.refl fs, hi, by simp [outputEntries], fun _ h _ => h⟩
  | cons out outputs ih =>
    have ho' : OutsideAll fs.cwd outputs := fun o h => ho o (List.mem_cons_of_mem _ h)
    rw [storeAll_cons hi]
    cases hr : fs.read out with
    | none =>
      obtain ⟨h1, h2, h3, h4⟩ := ih hi ho'
      refine ⟨h1, h2, fun entry he => h3 entry ?_, fun S hS hmem => h4 S hS fun o h =>
        hmem o (List.mem_cons_of_mem _ h)⟩
      rwa [outputEntries, List.filterMap_cons, hr] at he
    | some data =>
      have hstores := hi.stores_addObject (blobHash data) data
      obtain ⟨h1, h2, h3, h4⟩ := ih (hi.addObject data) (by rwa [FS.addObject_cwd])
      have hentries : outputEntries (fs.addObject (blobHash data) data) outputs
          = outputEntries fs outputs := by
        refine List.filterMap_congr fun o h => ?_
        rw [hstores.read_outside (ho' o h)]
      refine ⟨hstores.trans h1, h2, fun entry he => ?_, fun S hS hmem => ?_⟩
      · rw [outputEntries, List.filterMap_cons, hr] at he
        rcases List.mem_cons.mp he with rfl | he
        · have hin := (inStore_addObject fs data).stores h1
          obtain ⟨n, hn⟩ := Option.ne_none_iff_exists'.mp hin
          obtain ⟨d, -, hd, -⟩ := h2.object hn
          exact ⟨isHash_blobHash data, d, hd ▸ hn⟩
        · exact h3 entry (hentries ▸ he)
      · refine h4 S (hS.addObject_mem (hmem out List.mem_cons_self data hr)) fun o h d hd => ?_
        exact hmem o (List.mem_cons_of_mem _ h) d
          ((hstores.read_outside (ho' o h)).symm.trans hd)

/-- A file in the cache does not disturb the store. -/
theorem StoreInv.set_record {S : Set Bytes} (hi : StoreInv S fs) {key : Bytes}
    (hd : fs.node (recordPath fs.cwd key) ≠ some .dir) (content : Bytes) :
    StoreInv S (fs.set (recordPath fs.cwd key) (some (.file content))) :=
  hi.set (not_objects_recordPath fs.cwd key) hd content

theorem read_set_record {key s content : Bytes} (hs : ¬ Inside fs.cwd (resolve fs.cwd s)) :
    (fs.set (recordPath fs.cwd key) (some (.file content))).read s = fs.read s := by
  refine FS.read_congr rfl (FS.set_node_ne _ _ ?_)
  intro he
  exact hs (he ▸ inside_recordPath ..)

/-- The loop over the outputs appends a line for each that can be stored. -/
theorem writeOutputs_eq (hi : StoreOk fs) {outputs : List Bytes} (ho : OutsideAll fs.cwd outputs)
    {key : Bytes} (hd : fs.node (recordPath fs.cwd key) ≠ some .dir) (content : Bytes) :
    writeOutputs (fs.set (recordPath fs.cwd key) (some (.file content))) (recordPath fs.cwd key)
        outputs =
      (storeAll fs outputs).set (recordPath fs.cwd key) (some (.file (content ++
        (outputEntries fs outputs).flatMap fun entry => outputLine entry ++ ascii "\n"))) := by
  induction outputs generalizing fs content with
  | nil => simp [writeOutputs, storeAll, outputEntries]
  | cons out outputs ih =>
    have ho' : OutsideAll fs.cwd outputs := fun o h => ho o (List.mem_cons_of_mem _ h)
    rw [writeOutputs, (hi.set_record hd content).casStoreBlobFromFile,
      read_set_record (ho out List.mem_cons_self), storeAll_cons hi, outputEntries,
      List.filterMap_cons]
    cases hr : fs.read out with
    | none => exact ih hi ho' hd content
    | some data =>
      have hstores := hi.stores_addObject (blobHash data) data
      have hrec := hstores.elsewhere _ (not_objects_recordPath fs.cwd key)
      have hentries : outputEntries (fs.addObject (blobHash data) data) outputs
          = outputEntries fs outputs := by
        refine List.filterMap_congr fun o h => ?_
        rw [hstores.read_outside (ho' o h)]
      have := ih (hi.addObject data) (by rwa [FS.addObject_cwd])
        (by rwa [FS.addObject_cwd, hrec]) (content ++ (outputLine (out, blobHash data) ++ ascii "\n"))
      rw [FS.addObject_cwd, hentries] at this
      have hline : content ++ ascii "output " ++ out ++ ascii " " ++ blobHash data ++ ascii "\n"
          = content ++ (outputLine (out, blobHash data) ++ ascii "\n") := by
        simp [outputLine]
      dsimp only
      rw [FS.addObject_set, FS.write_file (FS.set_node_self ..), FS.set_set, Option.map_some,
        List.flatMap_cons, ← outputEntries]
      simpa only [List.append_assoc, outputLine] using this

/-- Outputs that are in the store already: only the record is written. -/
theorem writeOutputs_hashed (hi : StoreOk fs) {key : Bytes}
    (hd : fs.node (recordPath fs.cwd key) ≠ some .dir) {outputs : List Bytes}
    (hall : ∀ out ∈ outputs, Hashed fs out ∧ resolve fs.cwd out ≠ recordPath fs.cwd key) (content : Bytes) :
    writeOutputs (fs.set (recordPath fs.cwd key) (some (.file content))) (recordPath fs.cwd key)
        outputs =
      fs.set (recordPath fs.cwd key) (some (.file (content ++
        (outputEntries fs outputs).flatMap fun entry => outputLine entry ++ ascii "\n"))) := by
  induction outputs generalizing content with
  | nil => simp [writeOutputs, outputEntries]
  | cons out outputs ih =>
    obtain ⟨⟨data, hr, hin⟩, hne⟩ := hall out List.mem_cons_self
    have hi' := hi.set_record hd content
    have hread : (fs.set (recordPath fs.cwd key) (some (.file content))).read out = some data := by
      rw [← hr]
      exact FS.read_congr rfl (FS.set_node_ne _ _ hne)
    have hin' : InStore (fs.set (recordPath fs.cwd key) (some (.file content))) data := by
      rwa [InStore, FS.set_cwd, FS.set_node_ne _ _ (recordPath_ne_objectPath _ _ _).symm]
    have hrest := ih (fun o h => hall o (List.mem_cons_of_mem _ h))
      (content ++ (outputLine (out, blobHash data) ++ ascii "\n"))
    rw [writeOutputs, hi'.casStoreBlobFromFile, hread]
    dsimp only
    rw [hi'.addObject_inStore hin', FS.write_file (FS.set_node_self ..), FS.set_set, outputEntries,
      List.filterMap_cons, hr, Option.map_some, List.flatMap_cons, ← outputEntries]
    simpa only [List.append_assoc, outputLine] using hrest

/-- **Writing the record**: where its file can be written it is written whole, and the outputs
are stored. -/
theorem writeTaskRecord_eq (hi : StoreOk fs) {task : Task} (ho : OutsideAll fs.cwd task.outputs)
    {key result : Bytes} (hk : IsHash key) (hkey : task.taskHash = some key)
    (hres : task.resultHash = some result) :
    writeTaskRecord fs task =
      if fs.Writable (metaPath key) then
        (true, (storeAll fs task.outputs).set (recordPath fs.cwd key)
          (some (.file (recordText key ⟨result, outputEntries fs task.outputs⟩))))
      else (false, fs) := by
  rw [writeTaskRecord, hkey]
  simp only [FS.openWrite_eq]
  by_cases hw : fs.Writable (metaPath key)
  · have hd := hw.notDir
    rw [resolve_metaPath hk] at hd
    simp only [if_pos hw, resolve_metaPath hk, FS.set_cwd, hres, Option.getD_some]
    rw [FS.write_file (FS.set_node_self ..), FS.set_set, FS.write_file (FS.set_node_self ..),
      FS.set_set, writeOutputs_eq hi ho hd, recordText]
    simp
  · simp only [if_neg hw]

end ReproVM
