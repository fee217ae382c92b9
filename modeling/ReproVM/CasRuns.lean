/-
# The store over whole runs

A run is any sequence of stores (from memory, from a file), restores with a destination outside
the objects root, and edits outside `.reprovm`, from the empty store that `cas_init` makes.
`StoreInv` is what holds in every state of a run: the directories are there, and whatever else
lies below the objects root is an object, a content stored before at the place its hash names.
Every operation keeps it because each of them does one of three things to the tree: it adds
directories of the store, it adds one object, or it writes outside the objects root.
-/
import ReproVM.Cas
import ReproVM.Lib.Trans

namespace ReproVM

open Bytes (ascii)
open Lib (Run)

/-! ## 1. Operations -/

/-- An edit of anything outside `.reprovm`; the working directory stays a directory. -/
structure EditOutside (fs fs' : FS) : Prop where
  cwd : fs'.cwd = fs.cwd
  dir : fs'.node fs.cwd = fs.node fs.cwd
  inside : ∀ q, fs'.node (reprovmDir fs.cwd ++ q) = fs.node (reprovmDir fs.cwd ++ q)

theorem EditOutside.refl (fs : FS) : EditOutside fs fs := ⟨rfl, rfl, fun _ => rfl⟩

/-- One operation, with its arguments, the content it stores and what it returns. -/
inductive CasOp
  | storeMemory (data : Bytes) (ret : Option Bytes)
  | storeFile (path : Bytes) (data ret : Option Bytes)
  | restore (hash dest : Bytes) (ret : Bool)
  | edit

/-- The content an operation stores. -/
def CasOp.content : CasOp → Option Bytes
  | .storeMemory data _ => some data
  | .storeFile _ data _ => data
  | _ => none

/-- The hash an operation returns. -/
def CasOp.hash : CasOp → Option Bytes
  | .storeMemory _ ret => ret
  | .storeFile _ _ ret => ret
  | _ => none

inductive CasStep : FS → CasOp → FS → Prop
  | storeMemory (fs : FS) (data : Bytes) :
      CasStep fs (.storeMemory data (casStoreBlobFromMemory fs data).1)
        (casStoreBlobFromMemory fs data).2
  | storeFile (fs : FS) (path : Bytes) :
      CasStep fs (.storeFile path (fs.read path) (casStoreBlobFromFile fs path).1)
        (casStoreBlobFromFile fs path).2
  | restore (fs : FS) (hash dest : Bytes)
      (hdest : ¬ objectsDir fs.cwd <+: resolve fs.cwd dest) :
      CasStep fs (.restore hash dest (casRestoreBlobToFile fs hash dest).1)
        (casRestoreBlobToFile fs hash dest).2
  | edit {fs fs' : FS} (h : EditOutside fs fs') : CasStep fs .edit fs'

/-- The contents stored by a list of operations. -/
def stored (ops : List CasOp) : Set Bytes := {data | ∃ op ∈ ops, op.content = some data}

theorem stored_append (ops : List CasOp) (op : CasOp) :
    stored (ops ++ [op]) = stored ops ∪ {data | op.content = some data} := by
  ext data
  simp [stored, or_and_right, exists_or]

/-! ## 2. The invariant -/

/-- The store holds contents of `S` at the places their hashes name, and nothing else. -/
structure StoreInv (S : Set Bytes) (fs : FS) : Prop where
  cwd : fs.node fs.cwd = some .dir
  reprovm : fs.node (reprovmDir fs.cwd) = some .dir
  cas : fs.node (casDir fs.cwd) = some .dir
  objects : fs.node (objectsDir fs.cwd) = some .dir
  below : ∀ q n, fs.node (objectsDir fs.cwd ++ q) = some n → n = .dir ∧ q.length ≤ 1 ∨
    ∃ data ∈ S, n = .file data ∧ objectsDir fs.cwd ++ q = objectPath fs.cwd (blobHash data) ∧
      fs.node (objectDir fs.cwd (blobHash data)) = some .dir

theorem objectPath_eq (cwd : Path) (h : Bytes) :
    objectPath cwd h = objectsDir cwd ++ [h.take 2, h.drop 2] := by
  simp [objectPath, objectDir]

/-- A store that is ready stays ready. -/
theorem StoreReady.addObject {fs : FS} (hready : StoreReady fs) (h data : Bytes) :
    StoreReady (fs.addObject h data) where
  cwd := by
    rw [FS.addObject_cwd]
    exact FS.addObject_node_of_some hready.cwd ..
  reprovm := by
    rw [FS.addObject_cwd]
    exact FS.addObject_node_of_some hready.reprovm ..
  cas := by
    rw [FS.addObject_cwd]
    exact FS.addObject_node_of_some hready.cas ..
  objects := by
    rw [FS.addObject_cwd]
    exact FS.addObject_node_of_some hready.objects ..
  level x d hx := by
    rw [FS.addObject_cwd, FS.addObject_node] at hx
    split at hx
    · exact hready.level x d hx
    · split at hx
      · cases hx
      · split at hx
        · rename_i hobj
          rw [objectPath_eq] at hobj
          simp at hobj
        · cases hx

/-- A file where an object lies leaves the store ready. -/
theorem StoreReady.set_object {fs : FS} (hready : StoreReady fs) (h data : Bytes) :
    StoreReady (fs.set (objectPath fs.cwd h) (some (.file data))) := by
  have hne : ∀ p : Path, p.length < (objectPath fs.cwd h).length →
      (fs.set (objectPath fs.cwd h) (some (.file data))).node p = fs.node p := by
    intro p hp
    refine FS.set_node_ne _ _ ?_
    rintro rfl
    exact Nat.lt_irrefl _ hp
  have hlen : (objectPath fs.cwd h).length = fs.cwd.length + 5 := by
    simp [objectPath, objectDir, objectsDir, casDir, reprovmDir]
  constructor
  · rw [FS.set_cwd, hne _ (by omega)]
    exact hready.cwd
  · rw [FS.set_cwd, hne _ (by rw [hlen]; simp [reprovmDir])]
    exact hready.reprovm
  · rw [FS.set_cwd, hne _ (by rw [hlen]; simp [casDir, reprovmDir])]
    exact hready.cas
  · rw [FS.set_cwd, hne _ (by rw [hlen]; simp [objectsDir, casDir, reprovmDir])]
    exact hready.objects
  · intro x d
    rw [FS.set_cwd, hne _ (by rw [hlen]; simp [objectsDir, casDir, reprovmDir])]
    exact hready.level x d

namespace StoreInv

variable {S : Set Bytes} {fs : FS}

theorem ready (hi : StoreInv S fs) : StoreReady fs where
  cwd := hi.cwd
  reprovm := hi.reprovm
  cas := hi.cas
  objects := hi.objects
  level x d hx := by
    rcases hi.below [x] _ hx with ⟨h, -⟩ | ⟨data, -, -, he, -⟩
    · cases h
    · rw [objectPath_eq] at he
      simp at he

/-- Every file below the objects root is an object under its own hash. -/
theorem file (hi : StoreInv S fs) {q : Path} {data : Bytes}
    (hq : fs.node (objectsDir fs.cwd ++ q) = some (.file data)) :
    data ∈ S ∧ objectsDir fs.cwd ++ q = objectPath fs.cwd (blobHash data) ∧
      fs.node (objectDir fs.cwd (blobHash data)) = some .dir := by
  rcases hi.below q _ hq with ⟨h, -⟩ | ⟨d, hd, h, he, hdir⟩
  · cases h
  · cases h
    exact ⟨hd, he, hdir⟩

/-- No temporary file is left over. -/
theorem noTmp (hi : StoreInv S fs) {h : Bytes} (hh : IsHash h) :
    fs.node (objectDir fs.cwd h ++ [h.drop 2 ++ ascii ".tmp"]) = none := by
  cases hn : fs.node (objectDir fs.cwd h ++ [h.drop 2 ++ ascii ".tmp"]) with
  | none => rfl
  | some n =>
    rw [objectDir, List.append_assoc] at hn
    rcases hi.below _ _ hn with ⟨-, hlen⟩ | ⟨data, -, -, he, -⟩
    · simp at hlen
    · rw [objectPath_eq, List.append_cancel_left_eq] at he
      have hl := congrArg List.length (List.cons.inj (List.cons.inj he).2).1
      rw [List.length_append, List.length_drop, List.length_drop, hh.length,
        (isHash_blobHash data).length, show (ascii ".tmp").length = 4 by decide] at hl
      omega

theorem mono {T : Set Bytes} (hST : S ⊆ T) (hi : StoreInv S fs) : StoreInv T fs where
  cwd := hi.cwd
  reprovm := hi.reprovm
  cas := hi.cas
  objects := hi.objects
  below q n hq := by
    rcases hi.below q n hq with h | ⟨data, hd, h⟩
    · exact .inl h
    · exact .inr ⟨data, hST hd, h⟩

/-- Adding directories of the store. -/
theorem addDirs (hi : StoreInv S fs) {ps : List Path} (hps : ∀ p ∈ ps, StorePlace fs.cwd p) :
    StoreInv S (fs.addDirs ps) where
  cwd := FS.addDirs_node_of_some hi.cwd ps
  reprovm := FS.addDirs_node_of_some hi.reprovm ps
  cas := FS.addDirs_node_of_some hi.cas ps
  objects := FS.addDirs_node_of_some hi.objects ps
  below q n hq := by
    rw [FS.addDirs_cwd, FS.addDirs_node] at hq
    split at hq
    · rename_i hnew
      exact .inl ⟨(Option.some.inj hq).symm, (hps _ hnew.2).length_le⟩
    · rcases hi.below q n hq with h | ⟨data, hd, h, he, hdir⟩
      · exact .inl h
      · exact .inr ⟨data, hd, h, he, FS.addDirs_node_of_some hdir ps⟩

/-- Adding an object. -/
theorem addObject (hi : StoreInv S fs) (data : Bytes) :
    StoreInv (S ∪ {data}) (fs.addObject (blobHash data) data) := by
  have hready := hi.ready
  refine ⟨?_, ?_, ?_, ?_, fun q n hq => ?_⟩
  · rw [FS.addObject_cwd]
    exact FS.addObject_node_of_some hi.cwd ..
  · rw [FS.addObject_cwd]
    exact FS.addObject_node_of_some hi.reprovm ..
  · rw [FS.addObject_cwd]
    exact FS.addObject_node_of_some hi.cas ..
  · rw [FS.addObject_cwd]
    exact FS.addObject_node_of_some hi.objects ..
  · rw [FS.addObject_cwd] at hq ⊢
    rw [FS.addObject_node] at hq
    split at hq
    · rcases hi.below q n hq with h | ⟨d, hd, h, he, hdir⟩
      · exact .inl h
      · exact .inr ⟨d, .inl hd, h, he, FS.addObject_node_of_some hdir ..⟩
    · split at hq
      · rename_i hmem
        exact .inl ⟨(Option.some.inj hq).symm, (storePlace_storeDirs _ _ _ hmem).length_le⟩
      · split at hq
        · rename_i hobj
          exact .inr ⟨data, .inr rfl, (Option.some.inj hq).symm, hobj,
            hready.addObject_objectDir (blobHash data) data⟩
        · cases hq

/-- Writing a file outside the objects root. -/
theorem set (hi : StoreInv S fs) {p : Path} (hp : ¬ objectsDir fs.cwd <+: p)
    (hd : fs.node p ≠ some .dir) (data : Bytes) : StoreInv S (fs.set p (some (.file data))) := by
  have hkeep : ∀ r, fs.node r = some .dir → (fs.set p (some (.file data))).node r = some .dir := by
    intro r hr
    rwa [FS.set_node_ne _ _ (by rintro rfl; exact hd hr)]
  refine ⟨hkeep _ hi.cwd, hkeep _ hi.reprovm, hkeep _ hi.cas, hkeep _ hi.objects, fun q n hq => ?_⟩
  rw [FS.set_cwd] at hq ⊢
  rw [FS.set_node_ne _ _ (by rintro rfl; exact hp (List.prefix_append ..))] at hq
  rcases hi.below q n hq with h | ⟨d, hdS, h, he, hdir⟩
  · exact .inl h
  · exact .inr ⟨d, hdS, h, he, hkeep _ hdir⟩

/-- Edits outside `.reprovm`. -/
theorem edit (hi : StoreInv S fs) {fs' : FS} (h : EditOutside fs fs') : StoreInv S fs' := by
  have hobj : ∀ q, fs'.node (objectsDir fs.cwd ++ q) = fs.node (objectsDir fs.cwd ++ q) := by
    intro q
    simpa [objectsDir, casDir] using h.inside (ascii "cas" :: ascii "objects" :: q)
  have hdir : ∀ x, fs'.node (objectDir fs.cwd x) = fs.node (objectDir fs.cwd x) := fun x =>
    hobj [x.take 2]
  refine ⟨?_, ?_, ?_, ?_, fun q n hq => ?_⟩
  · rw [h.cwd, h.dir, hi.cwd]
  · have := h.inside []
    rw [List.append_nil] at this
    rw [h.cwd, this, hi.reprovm]
  · have := h.inside [ascii "cas"]
    rw [← casDir] at this
    rw [h.cwd, this, hi.cas]
  · have := hobj []
    rw [List.append_nil] at this
    rw [h.cwd, this, hi.objects]
  · rw [h.cwd, hobj] at hq
    simpa only [h.cwd, hobj, hdir] using hi.below q n hq

end StoreInv

/-! ## 3. What one operation does -/

/-- **One operation** adds an object and returns its hash, or it stores nothing and adds
directories, writes a file outside the objects root, or edits outside `.reprovm`. -/
theorem CasStep.cases {S : Set Bytes} {fs fs' : FS} {op : CasOp} (hs : CasStep fs op fs')
    (hi : StoreInv S fs) :
    (∃ data, op.content = some data ∧ op.hash = some (blobHash data) ∧
        fs' = fs.addObject (blobHash data) data) ∨
      op.content = none ∧
        ((∃ ps, (∀ p ∈ ps, StorePlace fs.cwd p) ∧
            (fs' = fs.addDirs ps ∨ ∃ p data, ¬ objectsDir fs.cwd <+: p ∧
              (fs.addDirs ps).node p ≠ some .dir ∧
              fs' = (fs.addDirs ps).set p (some (.file data)))) ∨
          EditOutside fs fs') := by
  cases hs with
  | storeMemory data =>
    rw [casStoreBlobFromMemory_ready hi.ready (hi.noTmp (isHash_blobHash data))]
    exact .inl ⟨data, rfl, rfl, rfl⟩
  | storeFile path =>
    rcases casStoreBlobFromFile_cases fs path with ⟨hr, he⟩ | ⟨data, hr, he | ⟨hn, -⟩⟩
    · rw [he, hr]
      exact .inr ⟨rfl, .inl ⟨[], by simp, .inl fs.addDirs_nil.symm⟩⟩
    · rw [he, hr]
      exact .inl ⟨data, rfl, rfl, rfl⟩
    · exact absurd hi.ready hn
  | restore hash dest hdest =>
    refine .inr ⟨rfl, .inl ?_⟩
    obtain ⟨ps, hps, he | ⟨hw, data, he⟩⟩ := casRestoreBlobToFile_cases fs hash dest
    · exact ⟨ps, hps, .inl (by rw [he])⟩
    · exact ⟨ps, hps, .inr ⟨_, data, hdest, hw.notDir, by rw [he]⟩⟩
  | edit h => exact .inr ⟨rfl, .inr h⟩

/-- It keeps the invariant, for what it stores. -/
theorem CasStep.inv {S : Set Bytes} {fs fs' : FS} {op : CasOp} (hs : CasStep fs op fs')
    (hi : StoreInv S fs) : StoreInv (S ∪ {data | op.content = some data}) fs' := by
  have hsub : S ⊆ S ∪ {data | op.content = some data} := Set.subset_union_left
  rcases hs.cases hi with ⟨data, hc, -, rfl⟩ |
    ⟨-, ⟨ps, hps, rfl | ⟨p, data, hp, hd, rfl⟩⟩ | he⟩
  · refine (hi.addObject data).mono (Set.union_subset_union_right _ ?_)
    rintro d rfl
    exact hc
  · exact (hi.addDirs hps).mono hsub
  · exact ((hi.addDirs hps).set hp hd data).mono hsub
  · exact (hi.edit he).mono hsub

/-- It changes and removes nothing in the store. -/
theorem CasStep.keep {S : Set Bytes} {fs fs' : FS} {op : CasOp} (hs : CasStep fs op fs')
    (hi : StoreInv S fs) : fs'.cwd = fs.cwd ∧
      ∀ q n, fs.node (objectsDir fs.cwd ++ q) = some n →
        fs'.node (objectsDir fs.cwd ++ q) = some n := by
  rcases hs.cases hi with ⟨data, hc, -, rfl⟩ |
    ⟨-, ⟨ps, hps, rfl | ⟨p, data, hp, hd, rfl⟩⟩ | he⟩
  · exact ⟨FS.addObject_cwd .., fun q n hq => FS.addObject_node_of_some hq ..⟩
  · exact ⟨rfl, fun q n hq => FS.addDirs_node_of_some hq ps⟩
  · refine ⟨rfl, fun q n hq => ?_⟩
    rw [FS.set_node_ne _ _ (by intro h; exact hp (h ▸ List.prefix_append ..))]
    exact FS.addDirs_node_of_some hq ps
  · refine ⟨he.cwd, fun q n hq => ?_⟩
    rw [← hq]
    simpa [objectsDir, casDir] using he.inside (ascii "cas" :: ascii "objects" :: q)

/-- What it stores is in the store afterwards, unless another content with its hash is. -/
theorem CasStep.object {S : Set Bytes} {fs fs' : FS} {op : CasOp} (hs : CasStep fs op fs')
    (hi : StoreInv S fs) {data : Bytes} (hc : op.content = some data) :
    op.hash = some (blobHash data) ∧
      ∃ n, fs'.node (objectPath fs.cwd (blobHash data)) = some n := by
  rcases hs.cases hi with ⟨d, hc', hh, rfl⟩ | ⟨hnone, -⟩
  · obtain rfl : d = data := Option.some.inj (hc'.symm.trans hc)
    refine ⟨hh, ?_⟩
    cases hn : fs.node (objectPath fs.cwd (blobHash d)) with
    | some n => exact ⟨n, FS.addObject_node_of_some hn ..⟩
    | none => exact ⟨_, FS.addObject_node_object hn d⟩
  · rw [hnone] at hc
    cases hc

/-! ## 4. Runs -/

/-- Everything a run stored is in the store at its end, and its operations returned the hashes. -/
structure RunInv (ops : List CasOp) (fs : FS) : Prop where
  store : StoreInv (stored ops) fs
  objects : ∀ op ∈ ops, ∀ data, op.content = some data → op.hash = some (blobHash data) ∧
    ∃ n, fs.node (objectPath fs.cwd (blobHash data)) = some n

theorem RunInv.step {ops : List CasOp} {fs fs' : FS} {op : CasOp} (hi : RunInv ops fs)
    (hs : CasStep fs op fs') : RunInv (ops ++ [op]) fs' where
  store := by
    rw [stored_append]
    exact hs.inv hi.store
  objects o ho data hc := by
    obtain ⟨hcwd, hkeep⟩ := hs.keep hi.store
    rw [hcwd]
    rcases List.mem_append.mp ho with ho | ho
    · obtain ⟨hh, n, hn⟩ := hi.objects o ho data hc
      refine ⟨hh, n, ?_⟩
      rw [objectPath_eq] at hn ⊢
      exact hkeep _ _ hn
    · obtain rfl := List.mem_singleton.mp ho
      exact hs.object hi.store hc

/-- An object that a run stored can be restored from its last state. -/
theorem RunInv.restore {ops : List CasOp} {fs : FS} (hi : RunInv ops fs)
    (hcf : CollisionFree (stored ops)) {op : CasOp} (hop : op ∈ ops) {data : Bytes}
    (hc : op.content = some data) {dest : Bytes} (hw : fs.Writable dest)
    (hdest : ¬ objectsDir fs.cwd <+: resolve fs.cwd dest) :
    casRestoreBlobToFile fs (blobHash data) dest
      = (true, fs.set (resolve fs.cwd dest) (some (.file data))) := by
  obtain ⟨-, n, hn⟩ := hi.objects op hop data hc
  have hpath := objectPath_eq fs.cwd (blobHash data)
  rw [hpath] at hn
  rcases hi.store.below _ _ hn with ⟨-, hlen⟩ | ⟨d, hd, rfl, he, hdir⟩
  · simp at hlen
  · -- the object holds a content of the run with the same hash
    rw [← hpath] at he hn
    have hhash := objectPath_inj he
    obtain rfl : data = d := blobHash_inj hcf ⟨op, hop, hc⟩ hd hhash
    refine casRestoreBlobToFile_object hi.store.ready (isHash_blobHash data) hdir hn hw ?_
    intro hres
    exact hdest (by rw [hres, objectPath_eq]; exact List.prefix_append ..)

/-- `cas_init` makes the empty store. -/
theorem NoStore.runInv {fs : FS} (h : NoStore fs) : RunInv [] (casInit fs (ascii ".")).2 where
  store := by
    have hdir : ∀ p ∈ initDirs fs.cwd, (fs.addDirs (initDirs fs.cwd)).node p = some .dir := by
      intro p hp
      have hnone : fs.node p = none := by
        simp only [initDirs, List.mem_cons, List.not_mem_nil, or_false] at hp
        rcases hp with rfl | rfl | rfl | rfl
        · simpa using h.empty []
        · exact h.empty [ascii "cas"]
        · simpa [objectsDir, casDir] using h.empty [ascii "cas", ascii "objects"]
        · exact h.empty [ascii "cache"]
      rw [FS.addDirs_node, if_pos ⟨hnone, hp⟩]
    rw [h.init_eq]
    refine ⟨FS.addDirs_node_of_some h.cwd _, hdir _ (by simp [initDirs]), hdir _ (by simp [initDirs]),
      hdir _ (by simp [initDirs]), fun q n hq => ?_⟩
    rw [FS.addDirs_cwd, FS.addDirs_node] at hq
    split at hq
    · rename_i hmem
      refine .inl ⟨(Option.some.inj hq).symm, ?_⟩
      have hlen : ∀ p ∈ initDirs fs.cwd, p.length ≤ (objectsDir fs.cwd).length := by
        simp [initDirs, objectsDir, casDir, reprovmDir, cacheDir]
      have := hlen _ hmem.2
      rw [List.length_append] at this
      omega
    · have := h.empty (ascii "cas" :: ascii "objects" :: q)
      rw [show reprovmDir fs.cwd ++ ascii "cas" :: ascii "objects" :: q = objectsDir fs.cwd ++ q by
        simp [objectsDir, casDir], hq] at this
      cases this
  objects := by simp

theorem runInv {fs₀ fs : FS} (h : NoStore fs₀) {ops : List CasOp}
    (hrun : Run CasStep (casInit fs₀ (ascii ".")).2 ops fs) : RunInv ops fs :=
  hrun.inv h.runInv fun _ _ _ _ _ hi hs => hi.step hs

/-- Nothing that is in the store at one state of a run changes later. -/
theorem RunInv.keep {ops ops' : List CasOp} {fs fs' : FS} (hi : RunInv ops fs)
    (hrun : Run CasStep fs ops' fs') : fs'.cwd = fs.cwd ∧
      ∀ q n, fs.node (objectsDir fs.cwd ++ q) = some n →
        fs'.node (objectsDir fs.cwd ++ q) = some n := by
  have := hrun.inv (I := fun ops' fs' => RunInv (ops ++ ops') fs' ∧ fs'.cwd = fs.cwd ∧
      ∀ q n, fs.node (objectsDir fs.cwd ++ q) = some n →
        fs'.node (objectsDir fs.cwd ++ q) = some n)
    ⟨by rwa [List.append_nil], rfl, fun _ _ hq => hq⟩ ?_
  · exact this.2
  · rintro tr t op u - ⟨hinv, hcwd, hq⟩ hs
    have hk := hs.keep hinv.store
    rw [hcwd] at hk
    exact ⟨by rw [← List.append_assoc]; exact hinv.step hs, hk.1, fun q n h => hk.2 q n (hq q n h)⟩

/-- **The store over whole runs**, from an empty store: `cas_init` succeeds; every file below the
objects root is at the place of its own hash; both store functions return the same hash for a
content; what is in the store stays as it is; and what was stored can be restored exactly. -/
theorem cas_runs {fs₀ fs : FS} (h : NoStore fs₀) {ops : List CasOp}
    (hrun : Run CasStep (casInit fs₀ (ascii ".")).2 ops fs) (hcf : CollisionFree (stored ops)) :
    (casInit fs₀ (ascii ".")).1 = true ∧
      (∀ q data, fs.node (objectsDir fs.cwd ++ q) = some (.file data) →
        objectsDir fs.cwd ++ q = objectPath fs.cwd (blobHash data)) ∧
      (∀ data, (casStoreBlobFromMemory fs data).1 = some (blobHash data) ∧
        ∀ path, fs.read path = some data →
          (casStoreBlobFromFile fs path).1 = some (blobHash data)) ∧
      (∀ ops' fs', Run CasStep fs ops' fs' → fs'.cwd = fs.cwd ∧
        ∀ q n, fs.node (objectsDir fs.cwd ++ q) = some n →
          fs'.node (objectsDir fs.cwd ++ q) = some n) ∧
      ∀ op ∈ ops, ∀ data, op.content = some data → ∃ hash, op.hash = some hash ∧
        ∀ dest, fs.Writable dest → ¬ objectsDir fs.cwd <+: resolve fs.cwd dest →
          casRestoreBlobToFile fs hash dest =
              (true, fs.set (resolve fs.cwd dest) (some (.file data))) ∧
            (casRestoreBlobToFile fs hash dest).2.read dest = some data := by
  have hi := runInv h hrun
  refine ⟨by rw [h.init_eq], fun q data hq => (hi.store.file hq).2.1, fun data => ⟨?_, ?_⟩,
    fun ops' fs' hr => hi.keep hr, fun op hop data hc => ?_⟩
  · rw [casStoreBlobFromMemory_ready hi.store.ready (hi.store.noTmp (isHash_blobHash data))]
  · intro path hr
    rcases casStoreBlobFromFile_cases fs path with ⟨hn, -⟩ | ⟨d, hd, he | ⟨hn, -⟩⟩
    · rw [hr] at hn
      cases hn
    · obtain rfl : data = d := Option.some.inj (hr.symm.trans hd)
      rw [he]
    · exact absurd hi.store.ready hn
  · refine ⟨blobHash data, (hi.objects op hop data hc).1, fun dest hw hdest => ?_⟩
    have he := hi.restore hcf hop hc hw hdest
    refine ⟨he, ?_⟩
    rw [he]
    exact FS.read_set_self hw.name data

/-- One store in an empty directory, and its restore into a new file. -/
theorem cas_runs_hello :
    let fs := (casStoreBlobFromMemory (casInit workDir (ascii ".")).2 (ascii "hello")).2
    fs.Writable (ascii "out") ∧
      (casRestoreBlobToFile fs (blobHash (ascii "hello")) (ascii "out")).2.read (ascii "out")
        = some (ascii "hello") := by
  intro fs
  have hw : fs.Writable (ascii "out") := by decide +kernel
  have hcf : CollisionFree (stored [.storeMemory (ascii "hello")
      (casStoreBlobFromMemory (casInit workDir (ascii ".")).2 (ascii "hello")).1]) := by
    intro x hx y hy _
    simp only [stored, List.mem_singleton, exists_eq_left, CasOp.content, Option.some.injEq,
      Set.mem_ofPred_eq] at hx hy
    rw [← hx, ← hy]
  obtain ⟨-, -, -, -, hrestore⟩ :=
    cas_runs workDir_noStore (Run.single (CasStep.storeMemory _ (ascii "hello"))) hcf
  obtain ⟨hash, hh, hdest⟩ := hrestore _ (List.mem_singleton.mpr rfl) (ascii "hello") rfl
  obtain rfl : blobHash (ascii "hello") = hash := by
    have hmem := casStoreBlobFromMemory_ready workDir_noStore.runInv.store.ready
      (workDir_noStore.runInv.store.noTmp (isHash_blobHash (ascii "hello")))
    rw [CasOp.hash, hmem] at hh
    exact Option.some.inj hh
  exact ⟨hw, (hdest (ascii "out") hw (by decide +kernel)).2⟩

end ReproVM
