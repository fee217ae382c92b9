/-
# The content-addressed store

`cas.c` below its SHA-256: object `h` is the file `objects/h[0..2]/h[2..]`, stored either from
memory (a temporary file and a rename) or from a file (a copy), and only when it is not there
yet.  The base directory is `.`, as in every program of the repository.

Both ways of storing do the same to the tree, `FS.addObject`: a file at the object's place and
the directories above it, and nothing that was there changes.  The rest of the development uses
the store through the lemmas of sections 5 and 6 only.
-/
import ReproVM.FileSystem
import ReproVM.Sha256Stream

namespace ReproVM

open Bytes (ascii pieces)
open FS (freadChunks)

/-! ## 1. `cas.c` -/

def casObjectsRoot (baseDir : Bytes) : Bytes :=
  snprintf 1024 (baseDir ++ ascii "/.reprovm/cas/objects")

def casCacheRoot (baseDir : Bytes) : Bytes := snprintf 1024 (baseDir ++ ascii "/.reprovm/cache")

/-- `objects_root` after `cas_init(".")`. -/
def objectsRoot : Bytes := casObjectsRoot (ascii ".")

/-- `cache_root` after `cas_init(".")`. -/
def cacheRoot : Bytes := casCacheRoot (ascii ".")

def casInit (fs : FS) (baseDir : Bytes) : Bool × FS :=
  match fs.ensureDirRecursive (casObjectsRoot baseDir) with
  | (false, fs) => (false, fs)
  | (true, fs) => fs.ensureDirRecursive (casCacheRoot baseDir)

def makeObjectPath (fs : FS) (hash : Bytes) (sz : Nat) : Option Bytes × FS :=
  if hash.length < 3 then (none, fs)
  else
    let dir := snprintf 1024 (objectsRoot ++ 47 :: hash.take 2)
    match fs.ensureDirRecursive dir with
    | (false, fs) => (none, fs)
    | (true, fs) => (some (snprintf sz (dir ++ 47 :: hash.drop 2)), fs)

def casBlobExists (fs : FS) (hash : Bytes) : Bool × FS :=
  match makeObjectPath fs hash 2048 with
  | (none, fs) => (false, fs)
  | (some path, fs) => (fs.fileExists path, fs)

/-- `cas_store_blob_from_memory` from the hash on. -/
def storeMemoryAs (fs : FS) (data hex : Bytes) : Option Bytes × FS :=
  match makeObjectPath fs hex 2048 with
  | (none, fs) => (none, fs)
  | (some objPath, fs) =>
    if fs.fileExists objPath then (some hex, fs)
    else
      let tmp := snprintf 4096 (objPath ++ ascii ".tmp")
      match fs.openWrite tmp with
      | none => (none, fs)
      | some fs =>
        let fs := fs.write (resolve fs.cwd tmp) data
        match fs.rename tmp objPath with
        | none => (none, fs.unlink tmp)
        | some fs => (some hex, fs)

def casStoreBlobFromMemory (fs : FS) (data : Bytes) : Option Bytes × FS :=
  storeMemoryAs fs data (hexEncode (sha256Final (sha256Update (sha256Init .fresh) data)))

/-- `cas_store_blob_from_file` from the hash on. -/
def storeFileAs (fs : FS) (path hex : Bytes) : Option Bytes × FS :=
  match makeObjectPath fs hex 2048 with
  | (none, fs) => (none, fs)
  | (some objPath, fs) =>
    if fs.fileExists objPath then (some hex, fs)
    else
      match fs.copyFile path objPath with
      | (false, fs) => (none, fs)
      | (true, fs) => (some hex, fs)

def casStoreBlobFromFile (fs : FS) (path : Bytes) : Option Bytes × FS :=
  match fs.read path with
  | none => (none, fs)
  | some data =>
    storeFileAs fs path
      (hexEncode (sha256Final ((freadChunks data).foldl sha256Update (sha256Init .fresh))))

def casRestoreBlobToFile (fs : FS) (hash dest : Bytes) : Bool × FS :=
  match makeObjectPath fs hash 2048 with
  | (none, fs) => (false, fs)
  | (some objPath, fs) => if fs.fileExists objPath then fs.copyFile objPath dest else (false, fs)

/-! ## 2. Hashes -/

/-- The name both store functions give a content. -/
def blobHash (data : Bytes) : Bytes := hexEncode (sha256 data)

/-- SHA-256 tells the contents of `S` apart. -/
def CollisionFree (S : Set Bytes) : Prop := Set.InjOn sha256 S

/-- A string of the form `hex_encode` gives a digest. -/
structure IsHash (h : Bytes) : Prop where
  length : h.length = 64
  hex : ∀ c ∈ h, c ∈ ascii "0123456789abcdef"

theorem sha256_length (data : Bytes) : (sha256 data).length = 32 := by
  simp [sha256, sha256Final, storeHash, Fips180.Words8.toList]

theorem blobHash_digest {data : Bytes} (hd : data.length < 2 ^ 61) :
    blobHash data = hexEncode (Fips180.OnNat.digest data) := by
  rw [blobHash, sha256_digest hd]

theorem isHash_blobHash (data : Bytes) : IsHash (blobHash data) where
  length := by rw [blobHash, hexEncode_length, sha256_length]
  hex _ hc := mem_hexEncode hc

theorem blobHash_inj {S : Set Bytes} (hS : CollisionFree S) {x y : Bytes} (hx : x ∈ S) (hy : y ∈ S)
    (h : blobHash x = blobHash y) : x = y :=
  hS hx hy (hexEncode_inj h)

/-- Hashing in pieces of 8192 bytes is hashing at once. -/
theorem sha256_freadChunks (data : Bytes) :
    hexEncode (sha256Final ((freadChunks data).foldl sha256Update (sha256Init .fresh)))
      = blobHash data := by
  have h : (freadChunks data).foldl sha256Update (sha256Init .fresh)
      = sha256Update (sha256Init .fresh) data := by
    conv_rhs => rw [← FS.freadChunks_flatten data, sha256Update, List.foldl_flatten]
    rfl
  rw [h, blobHash, sha256]

/-- A piece of a hash is a name. -/
theorem IsHash.isName {h c suffix : Bytes} (hh : IsHash h) (hc : ∀ x ∈ c, x ∈ h) (hne : c ≠ [])
    (hs : 47 ∉ suffix) : IsName (c ++ suffix) := by
  have hdigit : ∀ x ∈ c, x ≠ 47 ∧ x ≠ 46 := by
    intro x hx
    have := hh.hex x (hc x hx)
    constructor <;> (rintro rfl; revert this; decide)
  obtain ⟨x, xs, rfl⟩ := List.exists_cons_of_ne_nil hne
  have hx := (hdigit x List.mem_cons_self).2
  refine ⟨?_, by simp, ?_, ?_⟩
  · rw [List.mem_append, not_or]
    exact ⟨fun h => (hdigit 47 h).1 rfl, hs⟩
  · intro h
    exact hx (List.cons.inj h).1
  · intro h
    exact hx (List.cons.inj h).1

theorem IsHash.isName_take {h : Bytes} (hh : IsHash h) : IsName (h.take 2) := by
  have hlen := hh.length
  have := hh.isName (c := h.take 2) (fun _ => List.mem_of_mem_take) ?_ (List.not_mem_nil)
  · rwa [List.append_nil] at this
  · intro he
    have := congrArg List.length he
    rw [List.length_take, hlen] at this
    simp at this

theorem IsHash.isName_drop {h suffix : Bytes} (hh : IsHash h) (hs : 47 ∉ suffix) :
    IsName (h.drop 2 ++ suffix) := by
  refine hh.isName (fun _ => List.mem_of_mem_drop) ?_ hs
  intro he
  have := congrArg List.length he
  rw [List.length_drop, hh.length] at this
  simp at this

/-! ## 3. The places of the store -/

def reprovmDir (cwd : Path) : Path := cwd ++ [ascii ".reprovm"]

def casDir (cwd : Path) : Path := reprovmDir cwd ++ [ascii "cas"]

def objectsDir (cwd : Path) : Path := casDir cwd ++ [ascii "objects"]

def cacheDir (cwd : Path) : Path := reprovmDir cwd ++ [ascii "cache"]

def objectDir (cwd : Path) (h : Bytes) : Path := objectsDir cwd ++ [h.take 2]

def objectPath (cwd : Path) (h : Bytes) : Path := objectDir cwd h ++ [h.drop 2]

/-- The places `make_object_path` calls `mkdir` on for a hash. -/
def storeDirs (cwd : Path) (h : Bytes) : List Path :=
  [cwd, reprovmDir cwd, casDir cwd, objectsDir cwd, objectDir cwd h]

/-- The path string `make_object_path` gives. -/
def objectFile (h : Bytes) : Bytes := objectsRoot ++ 47 :: h.take 2 ++ 47 :: h.drop 2

theorem resolve_objectsRoot (cwd : Path) : resolve cwd objectsRoot = objectsDir cwd := rfl

theorem resolve_cacheRoot (cwd : Path) : resolve cwd cacheRoot = cacheDir cwd := rfl

theorem resolve_objectDir {h : Bytes} (hh : IsHash h) (cwd : Path) :
    resolve cwd (objectsRoot ++ 47 :: h.take 2) = objectDir cwd h := by
  rw [resolve_name (by decide) hh.isName_take, resolve_objectsRoot, objectDir]

/-- The place of an object, or of a file beside it. -/
theorem resolve_objectFile {h suffix : Bytes} (hh : IsHash h) (hs : 47 ∉ suffix) (cwd : Path) :
    resolve cwd (objectFile h ++ suffix) = objectDir cwd h ++ [h.drop 2 ++ suffix] := by
  rw [objectFile, List.append_assoc, List.cons_append,
    resolve_name (by simp) (hh.isName_drop hs), resolve_objectDir hh]

theorem namesDir_objectFile {h suffix : Bytes} (hh : IsHash h) (hs : 47 ∉ suffix) :
    namesDir (objectFile h ++ suffix) = false := by
  rw [objectFile, List.append_assoc, List.cons_append]
  exact namesDir_name (hh.isName_drop hs)

theorem resolve_object {h : Bytes} (hh : IsHash h) (cwd : Path) :
    resolve cwd (objectFile h) = objectPath cwd h := by
  have hres := resolve_objectFile hh (by simp : 47 ∉ ([] : Bytes)) cwd
  rwa [List.append_nil, List.append_nil, ← objectPath] at hres

theorem namesDir_object {h : Bytes} (hh : IsHash h) : namesDir (objectFile h) = false := by
  have hdir := namesDir_objectFile hh (by simp : 47 ∉ ([] : Bytes))
  rwa [List.append_nil] at hdir

/-- **The two-level split is injective.** -/
theorem objectPath_inj {cwd : Path} {h h' : Bytes} (he : objectPath cwd h = objectPath cwd h') :
    h = h' := by
  simp only [objectPath, objectDir, List.append_assoc, List.singleton_append,
    List.append_cancel_left_eq, List.cons.injEq, and_true] at he
  rw [← List.take_append_drop 2 h, he.1, he.2, List.take_append_drop]

/-! ## 4. `make_object_path` -/

/-- The strings of `objects_root` up to its slashes. -/
def objectsParents : List Bytes := [ascii ".", ascii "./.reprovm", ascii "./.reprovm/cas"]

/-- The `mkdir` calls for a directory below `objects_root`; one slash at the end is dropped. -/
theorem ensureDirRecursive_object (fs : FS) {u t : Bytes} (hlen : u.length ≤ 2) (hne : u ≠ [])
    (ht : t = [] ∧ u.getLast? ≠ some 47 ∨ t = [47]) :
    fs.ensureDirRecursive (objectsRoot ++ 47 :: u ++ t) =
      fs.mkdirAll (objectsParents ++ objectsRoot :: FS.slashCuts (objectsRoot ++ [47]) u ++
        [objectsRoot ++ 47 :: u]) := by
  obtain ⟨tail, hroot⟩ : ∃ tail, objectsRoot = 46 :: tail := ⟨objectsRoot.tail, by decide⟩
  have hcuts : FS.slashCuts [46] tail = objectsParents := by
    obtain rfl : tail = objectsRoot.tail := by rw [hroot]; rfl
    decide
  have htake : (objectsRoot ++ 47 :: u ++ t).take 4095 = objectsRoot ++ 47 :: u ++ t := by
    apply List.take_of_length_le
    have h22 : objectsRoot.length = 22 := by decide
    rcases ht with ⟨rfl, -⟩ | rfl <;> simp [h22] <;> omega
  have hstrip : (if (objectsRoot ++ 47 :: u ++ t).getLast? = some 47
      then (objectsRoot ++ 47 :: u ++ t).dropLast else objectsRoot ++ 47 :: u ++ t)
      = objectsRoot ++ 47 :: u := by
    rcases ht with ⟨rfl, hlast⟩ | rfl
    · rw [List.append_nil, if_neg]
      obtain ⟨c, u', rfl⟩ := List.exists_cons_of_ne_nil hne
      simpa using hlast
    · rw [if_pos List.getLast?_concat, List.dropLast_concat]
  rw [FS.ensureDirRecursive, htake, if_neg (by simp), hstrip, hroot]
  simp only [List.cons_append, FS.slashCuts_append, hcuts]
  rfl

/-- A place where `make_object_path` may call `mkdir`. -/
def StorePlace (cwd p : Path) : Prop :=
  p ∈ [cwd, reprovmDir cwd, casDir cwd, objectsDir cwd] ∨ ∃ x, p = objectsDir cwd ++ [x]

theorem storePlace_walk (cwd : Path) (c : Bytes) : StorePlace cwd (walk (objectsDir cwd) c) := by
  rw [walk]
  split
  · exact .inl (by simp)
  · split
    · exact .inl (by simp [objectsDir])
    · exact .inr ⟨c, rfl⟩

theorem storePlace_parents {cwd : Path} {s : Bytes} (h : s ∈ objectsParents) :
    StorePlace cwd (resolve cwd s) := by
  simp only [objectsParents, List.mem_cons, List.not_mem_nil, or_false] at h
  rcases h with rfl | rfl | rfl <;> refine .inl ?_
  · exact List.mem_cons_self
  · exact List.mem_cons_of_mem _ List.mem_cons_self
  · exact List.mem_cons_of_mem _ (List.mem_cons_of_mem _ List.mem_cons_self)

/-- The `mkdir` calls for two bytes of a hash, whatever they are. -/
theorem ensureDirRecursive_calls (fs : FS) (a b : UInt8) :
    ∃ ss, (∀ s ∈ ss, s ≠ [] ∧ StorePlace fs.cwd (resolve fs.cwd s)) ∧
      fs.ensureDirRecursive (objectsRoot ++ 47 :: [a, b]) = fs.mkdirAll ss := by
  obtain ⟨u, t, hut, hlen, hne, ht, hu⟩ : ∃ u t : Bytes, [a, b] = u ++ t ∧ u.length ≤ 2 ∧ u ≠ [] ∧
      (t = [] ∧ u.getLast? ≠ some 47 ∨ t = [47]) ∧ (u = [a] ∨ u = [a, b] ∧ b ≠ 47) := by
    by_cases hb : b = 47
    · exact ⟨[a], [47], by simp [hb], by simp, by simp, .inr rfl, .inl rfl⟩
    · exact ⟨[a, b], [], by simp, by simp, by simp, .inl ⟨rfl, by simpa using hb⟩,
        .inr ⟨rfl, hb⟩⟩
  rw [hut, ← List.cons_append, ← List.append_assoc, ensureDirRecursive_object fs hlen hne ht]
  refine ⟨_, fun s hs => ?_, rfl⟩
  have hroot : ∀ v c : Bytes, pieces 47 v = [c] ∨ pieces 47 v = [[], c] →
      objectsRoot ++ 47 :: v ≠ [] ∧
        StorePlace fs.cwd (resolve fs.cwd (objectsRoot ++ 47 :: v)) := by
    intro v c hv
    refine ⟨by simp, ?_⟩
    rw [resolve_append (by decide), resolve_objectsRoot]
    rcases hv with hv | hv <;> rw [hv] <;> exact storePlace_walk _ c
  simp only [List.mem_append, List.mem_cons, List.not_mem_nil, or_false] at hs
  rcases hs with (hs | rfl | hs) | rfl
  · refine ⟨?_, storePlace_parents hs⟩
    rintro rfl
    exact absurd hs (by decide)
  · exact ⟨by decide, .inl (by simp [resolve_objectsRoot])⟩
  · -- a slash among the bytes: it is the first of them
    have hcut : s = objectsRoot ++ 47 :: [] := by
      by_cases ha : a = 47
      · rcases hu with rfl | ⟨rfl, hb⟩
        · simpa [FS.slashCuts, ha] using hs
        · simpa [FS.slashCuts, ha, hb] using hs
      · rcases hu with rfl | ⟨rfl, hb⟩
        · simp [FS.slashCuts, ha] at hs
        · simp [FS.slashCuts, ha, hb] at hs
    rw [hcut]
    exact hroot [] [] (.inl rfl)
  · rcases hu with rfl | ⟨rfl, hb⟩
    · by_cases ha : a = 47
      · exact hroot _ [] (.inr (by simp [pieces, ha]))
      · exact hroot _ [a] (.inl (by simp [pieces, ha]))
    · by_cases ha : a = 47
      · exact hroot _ [b] (.inr (by simp [pieces, ha, hb]))
      · exact hroot _ [a, b] (.inl (by simp [pieces, ha, hb]))

theorem ensureDirRecursive_storePlace (fs : FS) (a b : UInt8) :
    ∃ ps, (∀ p ∈ ps, StorePlace fs.cwd p) ∧
      (fs.ensureDirRecursive (objectsRoot ++ 47 :: [a, b])).2 = fs.addDirs ps := by
  obtain ⟨ss, hss, he⟩ := ensureDirRecursive_calls fs a b
  obtain ⟨ps, hps, hsnd, -⟩ := fs.mkdirAll_eq ss
  refine ⟨ps, fun p hp => ?_, by rw [he, hsnd]⟩
  obtain ⟨s, hs, rfl⟩ := List.mem_map.mp (hps hp)
  exact (hss s hs).2

theorem snprintf_dir (hash : Bytes) :
    snprintf 1024 (objectsRoot ++ 47 :: hash.take 2) = objectsRoot ++ 47 :: hash.take 2 := by
  apply List.take_of_length_le
  have h22 : objectsRoot.length = 22 := by decide
  rw [List.length_append, List.length_cons, List.length_take, h22]
  omega

/-- **`make_object_path` only adds directories** of the store, for any string as the hash. -/
theorem makeObjectPath_snd (fs : FS) (hash : Bytes) (sz : Nat) :
    ∃ ps, (∀ p ∈ ps, StorePlace fs.cwd p) ∧ (makeObjectPath fs hash sz).2 = fs.addDirs ps := by
  by_cases hlen : hash.length < 3
  · exact ⟨[], by simp, by simp [makeObjectPath, hlen]⟩
  · obtain ⟨a, b, hab⟩ : ∃ a b, hash.take 2 = [a, b] :=
      List.length_eq_two.mp (by rw [List.length_take]; omega)
    obtain ⟨ps, hps, he⟩ := ensureDirRecursive_storePlace fs a b
    refine ⟨ps, hps, ?_⟩
    have hsn := snprintf_dir hash
    rw [hab] at hsn
    simp only [makeObjectPath, if_neg hlen, hab, hsn, ← he]
    rcases fs.ensureDirRecursive (objectsRoot ++ 47 :: [a, b]) with ⟨_ | _, fs'⟩ <;> rfl

/-- For a hash it makes the object's directory and gives the object's path. -/
theorem makeObjectPath_hash (fs : FS) {h : Bytes} (hh : IsHash h) :
    makeObjectPath fs h 2048 =
      match fs.mkdirAll (objectsParents ++ [objectsRoot, objectsRoot ++ 47 :: h.take 2]) with
      | (false, fs) => (none, fs)
      | (true, fs) => (some (objectFile h), fs) := by
  have hlen := hh.length
  have hn := hh.isName_take
  have hlast : (h.take 2).getLast? ≠ some 47 := fun hl => hn.slash (List.mem_of_getLast? hl)
  have hens := ensureDirRecursive_object fs (t := []) (List.length_take_le 2 h) hn.notEmpty
    (.inl ⟨rfl, hlast⟩)
  rw [List.append_nil, FS.slashCuts_of_notMem hn.slash] at hens
  have hsn : snprintf 2048 (objectsRoot ++ 47 :: h.take 2 ++ 47 :: h.drop 2) = objectFile h := by
    apply List.take_of_length_le
    have h22 : objectsRoot.length = 22 := by decide
    simp [h22, hlen]
  simp only [makeObjectPath, if_neg (show ¬ h.length < 3 by omega), snprintf_dir, hens,
    List.append_assoc, List.cons_append, List.nil_append]
  simp only [List.append_assoc, List.cons_append] at hsn
  rw [hsn]

/-- When it succeeds all the places are there. -/
theorem makeObjectPath_some {fs fs' : FS} {h path : Bytes} (hh : IsHash h)
    (hm : makeObjectPath fs h 2048 = (some path, fs')) :
    path = objectFile h ∧ fs' = fs.addDirs (storeDirs fs.cwd h) := by
  rw [makeObjectPath_hash fs hh] at hm
  obtain ⟨ps, -, h2, h3⟩ :=
    fs.mkdirAll_eq (objectsParents ++ [objectsRoot, objectsRoot ++ 47 :: h.take 2])
  rcases hr : fs.mkdirAll (objectsParents ++ [objectsRoot, objectsRoot ++ 47 :: h.take 2])
    with ⟨_ | _, fs1⟩ <;> rw [hr] at hm h2 h3
  · simp at hm
  · simp only [Prod.mk.injEq, Option.some.injEq] at hm
    refine ⟨hm.1.symm, ?_⟩
    have hps : ps = storeDirs fs.cwd h := by
      rw [h3 rfl, List.map_append]
      simp only [List.map_cons, List.map_nil, resolve_objectDir hh]
      rfl
    rw [← hm.2, ← hps]
    exact h2

/-- The directories of the store are there, and what lies directly in `objects` is no file. -/
structure StoreReady (fs : FS) : Prop where
  cwd : fs.node fs.cwd = some .dir
  reprovm : fs.node (reprovmDir fs.cwd) = some .dir
  cas : fs.node (casDir fs.cwd) = some .dir
  objects : fs.node (objectsDir fs.cwd) = some .dir
  level : ∀ x d, fs.node (objectsDir fs.cwd ++ [x]) ≠ some (.file d)

/-- With a ready store `make_object_path` succeeds. -/
theorem StoreReady.makeObjectPath {fs : FS} (hr : StoreReady fs) {h : Bytes} (hh : IsHash h) :
    makeObjectPath fs h 2048 = (some (objectFile h), fs.addDirs (storeDirs fs.cwd h)) := by
  have hok : (fs.mkdirAll (objectsParents ++ [objectsRoot, objectsRoot ++ 47 :: h.take 2])).1
      = true := by
    have hpar : ∀ s ∈ objectsParents ++ [objectsRoot],
        s ≠ [] ∧ ∃ n, fs.node (resolve fs.cwd s) = some n := by
      intro s hs
      simp only [objectsParents, List.cons_append, List.nil_append, List.mem_cons,
        List.not_mem_nil, or_false] at hs
      rcases hs with rfl | rfl | rfl | rfl
      · exact ⟨by decide, _, hr.cwd⟩
      · exact ⟨by decide, _, hr.reprovm⟩
      · exact ⟨by decide, _, hr.cas⟩
      · exact ⟨by decide, _, hr.objects⟩
    rw [show objectsParents ++ [objectsRoot, objectsRoot ++ 47 :: h.take 2]
        = (objectsParents ++ [objectsRoot]) ++ [objectsRoot ++ 47 :: h.take 2] by simp,
      FS.mkdirAll_append hpar, FS.mkdirAll, FS.mkdir, if_neg (by simp), resolve_objectDir hh]
    have hpd : fs.node (objectDir fs.cwd h).dropLast = some .dir := by
      rw [objectDir, List.dropLast_concat]
      exact hr.objects
    cases hn : fs.node (objectDir fs.cwd h) with
    | some n => rfl
    | none => simp [hpd, FS.mkdirAll]
  rcases hm : ReproVM.makeObjectPath fs h 2048 with ⟨_ | path, fs'⟩
  · rw [makeObjectPath_hash fs hh] at hm
    rcases hr : fs.mkdirAll (objectsParents ++ [objectsRoot, objectsRoot ++ 47 :: h.take 2])
      with ⟨_ | _, fs1⟩ <;> rw [hr] at hm hok
    · exact absurd hok (by simp)
    · simp at hm
  · obtain ⟨rfl, rfl⟩ := makeObjectPath_some hh hm
    rfl

/-! ## 5. Storing -/

/-- The tree with object `h` in the store. -/
def FS.addObject (fs : FS) (h data : Bytes) : FS :=
  if fs.node (objectPath fs.cwd h) = none then
    (fs.addDirs (storeDirs fs.cwd h)).set (objectPath fs.cwd h) (some (.file data))
  else fs.addDirs (storeDirs fs.cwd h)

theorem storePlace_storeDirs (cwd : Path) (h : Bytes) : ∀ p ∈ storeDirs cwd h, StorePlace cwd p := by
  intro p hp
  simp only [storeDirs, List.mem_cons, List.not_mem_nil, or_false] at hp
  rcases hp with hp | hp | hp | hp | hp
  · exact .inl (by simp [hp])
  · exact .inl (by simp [hp])
  · exact .inl (by simp [hp])
  · exact .inl (by simp [hp])
  · exact .inr ⟨_, hp⟩

theorem StorePlace.length_le {cwd q : Path} (h : StorePlace cwd (objectsDir cwd ++ q)) :
    q.length ≤ 1 := by
  rcases h with h | ⟨x, hx⟩
  · simp only [List.mem_cons, List.not_mem_nil, or_false] at h
    rcases h with h | h | h | h
    all_goals
      have := congrArg List.length h
      simp only [objectsDir, casDir, reprovmDir, List.length_append, List.length_cons,
        List.length_nil] at this
      omega
  · rw [List.append_cancel_left hx]
    simp

theorem objectPath_notMem_storeDirs (cwd : Path) (h : Bytes) :
    objectPath cwd h ∉ storeDirs cwd h := by
  intro hm
  have hlen : ∀ p ∈ storeDirs cwd h, p.length < (objectPath cwd h).length := by
    simp [storeDirs, objectPath, objectDir, objectsDir, casDir, reprovmDir]
  exact Nat.lt_irrefl _ (hlen _ hm)

@[simp] theorem FS.addObject_cwd (fs : FS) (h data : Bytes) : (fs.addObject h data).cwd = fs.cwd := by
  unfold FS.addObject
  split <;> rfl

/-- **Nothing that is there changes.** -/
theorem FS.addObject_node_of_some {fs : FS} {p : Path} {n : Node} (hp : fs.node p = some n)
    (h data : Bytes) : (fs.addObject h data).node p = some n := by
  unfold FS.addObject
  split
  · rename_i hnone
    rw [FS.set_node_ne _ _ (by rintro rfl; rw [hp] at hnone; cases hnone)]
    exact FS.addDirs_node_of_some hp _
  · exact FS.addDirs_node_of_some hp _

theorem FS.addObject_node_object {fs : FS} {h : Bytes} (hn : fs.node (objectPath fs.cwd h) = none)
    (data : Bytes) : (fs.addObject h data).node (objectPath fs.cwd h) = some (.file data) := by
  rw [FS.addObject, if_pos hn, FS.set_node_self]

theorem FS.addObject_node_of_ne {fs : FS} {h data : Bytes} {p : Path}
    (hp : p ≠ objectPath fs.cwd h) (hd : p ∉ storeDirs fs.cwd h) :
    (fs.addObject h data).node p = fs.node p := by
  unfold FS.addObject
  split
  · rw [FS.set_node_ne _ _ hp, FS.addDirs_node_of_notMem hd]
  · exact FS.addDirs_node_of_notMem hd

/-- What a place is after a store. -/
theorem FS.addObject_node (fs : FS) (h data : Bytes) (p : Path) :
    (fs.addObject h data).node p =
      if fs.node p ≠ none then fs.node p
      else if p ∈ storeDirs fs.cwd h then some .dir
      else if p = objectPath fs.cwd h then some (.file data) else none := by
  cases hn : fs.node p with
  | some n => rw [FS.addObject_node_of_some hn, if_pos (by simp)]
  | none =>
    rw [if_neg (by simp)]
    by_cases hd : p ∈ storeDirs fs.cwd h
    · have hdir : (fs.addDirs (storeDirs fs.cwd h)).node p = some .dir := by
        rw [FS.addDirs_node, if_pos ⟨hn, hd⟩]
      have hp : p ≠ objectPath fs.cwd h := by
        rintro rfl
        exact objectPath_notMem_storeDirs _ _ hd
      rw [if_pos hd]
      unfold FS.addObject
      split
      · rw [FS.set_node_ne _ _ hp, hdir]
      · exact hdir
    · rw [if_neg hd]
      by_cases hp : p = objectPath fs.cwd h
      · subst hp
        rw [if_pos rfl, FS.addObject_node_object hn]
      · rw [if_neg hp, FS.addObject_node_of_ne hp hd, hn]

/-- Where the object's directory is there, none is added. -/
theorem StoreReady.addDirs_same {fs : FS} (hready : StoreReady fs) {h : Bytes}
    (hdir : fs.node (objectDir fs.cwd h) = some .dir) : fs.addDirs (storeDirs fs.cwd h) = fs := by
  refine FS.addDirs_of_exists fun p hp => ?_
  simp only [storeDirs, List.mem_cons, List.not_mem_nil, or_false] at hp
  rcases hp with rfl | rfl | rfl | rfl | rfl
  · simp [hready.cwd]
  · simp [hready.reprovm]
  · simp [hready.cas]
  · simp [hready.objects]
  · simp [hdir]

/-- A store that is ready has the object's directory afterwards. -/
theorem StoreReady.addDirs_objectDir {fs : FS} (hready : StoreReady fs) (h : Bytes) :
    (fs.addDirs (storeDirs fs.cwd h)).node (objectDir fs.cwd h) = some .dir := by
  rw [FS.addDirs_node]
  cases hn : fs.node (objectDir fs.cwd h) with
  | none => rw [if_pos ⟨rfl, by simp [storeDirs]⟩]
  | some n =>
    cases n with
    | dir => simp
    | file d => exact absurd hn (hready.level _ d)

theorem StoreReady.addObject_objectDir {fs : FS} (hready : StoreReady fs) (h data : Bytes) :
    (fs.addObject h data).node (objectDir fs.cwd h) = some .dir := by
  unfold FS.addObject
  split
  · rw [FS.set_node_ne _ _ (by simp [objectPath]), hready.addDirs_objectDir]
  · exact hready.addDirs_objectDir h

/-- The object's path is looked up at the object's place. -/
theorem lookup_objectFile {h : Bytes} (hh : IsHash h) (fs : FS) :
    fs.lookup (objectFile h) = fs.node (objectPath fs.cwd h) := by
  rw [FS.lookup, if_neg (by simp [objectFile]), resolve_object hh, namesDir_object hh]
  simp only [Bool.false_eq_true, if_false]
  split
  · rename_i he
    exact he.symm
  · rfl

theorem fileExists_objectFile {h : Bytes} (hh : IsHash h) (fs : FS) :
    fs.fileExists (objectFile h) = (fs.node (objectPath fs.cwd h)).isSome := by
  rw [FS.fileExists, lookup_objectFile hh]

/-- What is there is read the same after directories were added. -/
theorem read_addDirs {fs : FS} {s data : Bytes} (hr : fs.read s = some data) (ps : List Path) :
    (fs.addDirs ps).read s = some data := by
  obtain ⟨n, hn⟩ := Option.ne_none_iff_exists'.mp (FS.node_ne_none_of_read hr)
  rw [← hr]
  refine FS.read_congr rfl ?_
  rw [hn]
  exact FS.addDirs_node_of_some hn ps

/-- In a ready store the place of a missing object can be written once its directory is made. -/
theorem StoreReady.writable {fs : FS} (hready : StoreReady fs) {h : Bytes} (hh : IsHash h)
    {suffix : Bytes} (hs : 47 ∉ suffix)
    (hn : fs.node (objectDir fs.cwd h ++ [h.drop 2 ++ suffix]) = none) :
    (fs.addDirs (storeDirs fs.cwd h)).Writable (objectFile h ++ suffix) := by
  have hmem : objectDir fs.cwd h ++ [h.drop 2 ++ suffix] ∉ storeDirs fs.cwd h := by
    intro hm
    have hlen : ∀ p ∈ storeDirs fs.cwd h, p.length < (objectDir fs.cwd h ++ [([] : Bytes)]).length := by
      simp [storeDirs, objectDir, objectsDir, casDir, reprovmDir]
    have := hlen _ hm
    simp at this
  refine ⟨namesDir_objectFile hh hs, ?_, ?_⟩
  · rw [FS.addDirs_cwd, resolve_objectFile hh hs, FS.addDirs_node_of_notMem hmem, hn]
    simp
  · rw [FS.addDirs_cwd, resolve_objectFile hh hs, List.dropLast_concat, hready.addDirs_objectDir]

theorem StoreReady.writable_object {fs : FS} (hready : StoreReady fs) {h : Bytes} (hh : IsHash h)
    (hn : fs.node (objectPath fs.cwd h) = none) :
    (fs.addDirs (storeDirs fs.cwd h)).Writable (objectFile h) := by
  have := hready.writable hh (by simp : 47 ∉ ([] : Bytes)) (by rwa [List.append_nil, ← objectPath])
  rwa [List.append_nil] at this

/-- **Storing a readable file under the hash `h`**: the object is in the store, or, in a store
that is not ready, only directories are added. -/
theorem storeFileAs_cases {fs : FS} {path data h : Bytes} (hh : IsHash h)
    (hr : fs.read path = some data) :
    storeFileAs fs path h = (some h, fs.addObject h data) ∨
      ¬ StoreReady fs ∧ ∃ ps, (∀ p ∈ ps, StorePlace fs.cwd p) ∧
        storeFileAs fs path h = (none, fs.addDirs ps) := by
  obtain ⟨ps, hps, hsnd⟩ := makeObjectPath_snd fs h 2048
  rw [storeFileAs]
  rcases hm : makeObjectPath fs h 2048 with ⟨_ | objPath, fs1⟩
  · rw [hm] at hsnd
    refine .inr ⟨fun hready => ?_, ps, hps, by rw [← hsnd]⟩
    rw [hready.makeObjectPath hh] at hm
    cases hm
  · obtain ⟨rfl, rfl⟩ := makeObjectPath_some hh hm
    have hobj : (fs.addDirs (storeDirs fs.cwd h)).node (objectPath fs.cwd h)
        = fs.node (objectPath fs.cwd h) :=
      FS.addDirs_node_of_notMem (objectPath_notMem_storeDirs fs.cwd h)
    simp only [fileExists_objectFile hh, FS.addDirs_cwd, hobj]
    cases hn : fs.node (objectPath fs.cwd h) with
    | some n => exact .inl (by simp [FS.addObject, hn])
    | none =>
      have hread := read_addDirs hr (storeDirs fs.cwd h)
      have hres := resolve_object hh fs.cwd
      have hne : resolve fs.cwd path ≠ resolve fs.cwd (objectFile h) := by
        intro he
        have hnone : (fs.addDirs (storeDirs fs.cwd h)).node (resolve fs.cwd path) = none := by
          rw [he, hres, hobj, hn]
        exact FS.node_ne_none_of_read hread hnone
      by_cases hw : (fs.addDirs (storeDirs fs.cwd h)).Writable (objectFile h)
      · refine .inl ?_
        simp only [Option.isSome_none, Bool.false_eq_true, if_false,
          FS.copyFile_of_ne hread hw hne, FS.addDirs_cwd, hres]
        rw [FS.addObject, if_pos hn]
      · refine .inr ⟨fun hready => hw (hready.writable_object hh hn), storeDirs fs.cwd h, ?_, ?_⟩
        · exact storePlace_storeDirs fs.cwd h
        · simp only [Option.isSome_none, Bool.false_eq_true, if_false]
          rw [FS.copyFile_eq, if_neg fun h => hw h.2]

/-- **Storing a file**: it cannot be read; or the object is in the store and named by the hash
of the content; or, in a store that is not ready, only directories are added. -/
theorem casStoreBlobFromFile_cases (fs : FS) (path : Bytes) :
    fs.read path = none ∧ casStoreBlobFromFile fs path = (none, fs) ∨
      ∃ data, fs.read path = some data ∧
        (casStoreBlobFromFile fs path = (some (blobHash data), fs.addObject (blobHash data) data) ∨
          ¬ StoreReady fs ∧ ∃ ps, (∀ p ∈ ps, StorePlace fs.cwd p) ∧
            casStoreBlobFromFile fs path = (none, fs.addDirs ps)) := by
  rw [casStoreBlobFromFile]
  cases hr : fs.read path with
  | none => exact .inl ⟨rfl, rfl⟩
  | some data =>
    simp only [sha256_freadChunks]
    exact .inr ⟨data, rfl, storeFileAs_cases (isHash_blobHash data) hr⟩

/-- The temporary file of an object that is not there: its name fits, and both files can be
written. -/
theorem StoreReady.tmpFile {fs : FS} (hready : StoreReady fs) {h : Bytes} (hh : IsHash h)
    (htmp : fs.node (objectDir fs.cwd h ++ [h.drop 2 ++ ascii ".tmp"]) = none)
    (hn : fs.node (objectPath fs.cwd h) = none) :
    let fs₁ := fs.addDirs (storeDirs fs.cwd h)
    let tmp := objectFile h ++ ascii ".tmp"
    snprintf 4096 tmp = tmp ∧ fs₁.Writable tmp ∧ fs₁.node (resolve fs₁.cwd tmp) = none ∧
      fs₁.Writable (objectFile h) ∧ resolve fs₁.cwd tmp ≠ resolve fs₁.cwd (objectFile h) := by
  intro fs₁ tmp
  have hsuf : (47 : UInt8) ∉ ascii ".tmp" := by decide
  have h4 : (ascii ".tmp").length = 4 := by decide
  have hlen : tmp.length ≤ 4095 := by
    have h22 : objectsRoot.length = 22 := by decide
    simp [tmp, objectFile, h22, h4, hh.length]
  have hwt : fs₁.Writable tmp := hready.writable hh hsuf htmp
  have hwo : fs₁.Writable (objectFile h) := hready.writable_object hh hn
  have hres : resolve fs₁.cwd (objectFile h) = objectPath fs.cwd h := resolve_object hh fs.cwd
  have hrest : resolve fs₁.cwd tmp = objectDir fs.cwd h ++ [h.drop 2 ++ ascii ".tmp"] :=
    resolve_objectFile hh hsuf fs.cwd
  refine ⟨List.take_of_length_le hlen, hwt, ?_, hwo, ?_⟩
  · rw [hrest, FS.addDirs_node, if_neg, htmp]
    rintro ⟨-, hm⟩
    have h1 := hwt.notDir
    rw [hrest, FS.addDirs_node, if_pos ⟨htmp, hm⟩] at h1
    exact h1 rfl
  · rw [hrest, hres]
    intro he
    have hl := congrArg List.length (List.cons.inj (List.append_cancel_left he)).1
    rw [List.length_append, h4] at hl
    omega

/-- **Storing from memory**, in a ready store without a left-over temporary file: the rename
leaves the same tree as a copy would. -/
theorem storeMemoryAs_ready {fs : FS} (hready : StoreReady fs) {h : Bytes} (hh : IsHash h)
    (htmp : fs.node (objectDir fs.cwd h ++ [h.drop 2 ++ ascii ".tmp"]) = none) (data : Bytes) :
    storeMemoryAs fs data h = (some h, fs.addObject h data) := by
  have hobj : (fs.addDirs (storeDirs fs.cwd h)).node (objectPath fs.cwd h)
      = fs.node (objectPath fs.cwd h) :=
    FS.addDirs_node_of_notMem (objectPath_notMem_storeDirs fs.cwd h)
  rw [storeMemoryAs, hready.makeObjectPath hh]
  simp only [fileExists_objectFile hh, FS.addDirs_cwd, hobj]
  cases hn : fs.node (objectPath fs.cwd h) with
  | some n => simp [FS.addObject, hn]
  | none =>
    obtain ⟨hsn, hwt, hnt, hwo, hne⟩ := hready.tmpFile hh htmp hn
    have hres := resolve_object hh fs.cwd
    simp only [Option.isSome_none, Bool.false_eq_true, if_false, hsn, FS.openWrite_eq, if_pos hwt,
      FS.set_cwd]
    rw [FS.write_file (FS.set_node_self ..), FS.set_set, List.nil_append,
      FS.rename_new hwt hnt hwo hne]
    simp only [FS.addDirs_cwd, hres, FS.addObject, if_pos hn]

theorem casStoreBlobFromMemory_ready {fs : FS} (hready : StoreReady fs) {data : Bytes}
    (htmp : fs.node (objectDir fs.cwd (blobHash data) ++
      [(blobHash data).drop 2 ++ ascii ".tmp"]) = none) :
    casStoreBlobFromMemory fs data = (some (blobHash data), fs.addObject (blobHash data) data) := by
  have hhex : hexEncode (sha256Final (sha256Update (sha256Init .fresh) data)) = blobHash data := by
    rw [blobHash, sha256]
  rw [casStoreBlobFromMemory, hhex]
  exact storeMemoryAs_ready hready (isHash_blobHash data) htmp data

/-! ## 6. Restoring -/

/-- **Restoring an object** that is there. -/
theorem casRestoreBlobToFile_object {fs : FS} (hready : StoreReady fs) {h dest data : Bytes}
    (hh : IsHash h) (hdir : fs.node (objectDir fs.cwd h) = some .dir)
    (hobj : fs.node (objectPath fs.cwd h) = some (.file data)) (hw : fs.Writable dest)
    (hne : resolve fs.cwd dest ≠ objectPath fs.cwd h) :
    casRestoreBlobToFile fs h dest = (true, fs.set (resolve fs.cwd dest) (some (.file data))) := by
  have hres := resolve_object hh fs.cwd
  have hread : fs.read (objectFile h) = some data := by
    rw [FS.read, lookup_objectFile hh, hobj]
  rw [casRestoreBlobToFile, hready.makeObjectPath hh, hready.addDirs_same hdir]
  simp only [fileExists_objectFile hh, hobj, Option.isSome_some, if_true]
  exact FS.copyFile_of_ne hread hw (by rw [hres]; exact Ne.symm hne)

/-- **An object restored to its own place** is empty: the destination is opened, and with that
emptied, before the object is read. -/
theorem casRestoreBlobToFile_self {fs : FS} (hready : StoreReady fs) {h data : Bytes} (hh : IsHash h)
    (hdir : fs.node (objectDir fs.cwd h) = some .dir)
    (hobj : fs.node (objectPath fs.cwd h) = some (.file data)) :
    casRestoreBlobToFile fs h (objectFile h) =
      (true, fs.set (objectPath fs.cwd h) (some (.file []))) := by
  have hres := resolve_object hh fs.cwd
  have hex : fs.fileExists (objectFile h) = true := by
    rw [fileExists_objectFile hh, hobj]
    rfl
  have hw : fs.Writable (objectFile h) := by
    refine ⟨namesDir_object hh, ?_, ?_⟩ <;> rw [hres]
    · simp [hobj]
    · rwa [objectPath, List.dropLast_concat]
  have hempty : (fs.set (objectPath fs.cwd h) (some (.file []))).read (objectFile h) = some [] := by
    rw [← hres]
    exact FS.read_set_self (namesDir_object hh) []
  rw [casRestoreBlobToFile, hready.makeObjectPath hh, hready.addDirs_same hdir]
  simp only [hex, if_true]
  rw [FS.copyFile_eq, if_pos ⟨hex, hw⟩, hres, hempty, Option.getD_some]

/-- **Restoring anything**: directories of the store are added, and when it succeeds the
destination becomes a file. -/
theorem casRestoreBlobToFile_cases (fs : FS) (hash dest : Bytes) :
    ∃ ps, (∀ p ∈ ps, StorePlace fs.cwd p) ∧
      (casRestoreBlobToFile fs hash dest = (false, fs.addDirs ps) ∨
        (fs.addDirs ps).Writable dest ∧ ∃ data, casRestoreBlobToFile fs hash dest =
          (true, (fs.addDirs ps).set (resolve fs.cwd dest) (some (.file data)))) := by
  obtain ⟨ps, hps, hsnd⟩ := makeObjectPath_snd fs hash 2048
  refine ⟨ps, hps, ?_⟩
  rw [casRestoreBlobToFile]
  rcases hm : makeObjectPath fs hash 2048 with ⟨_ | objPath, fs1⟩ <;> rw [hm] at hsnd
  · exact .inl (by rw [← hsnd])
  · obtain rfl : fs1 = fs.addDirs ps := hsnd
    simp only [FS.copyFile_eq]
    by_cases hex : (fs.addDirs ps).fileExists objPath
    · by_cases hw : (fs.addDirs ps).Writable dest
      · exact .inr ⟨hw, _, by rw [if_pos hex, if_pos ⟨hex, hw⟩]; rfl⟩
      · exact .inl (by rw [if_pos hex, if_neg fun h => hw h.2])
    · exact .inl (if_neg hex)

/-! ## 7. `cas_init` -/

/-- The places `cas_init` makes in an empty working directory. -/
def initDirs (cwd : Path) : List Path := [reprovmDir cwd, casDir cwd, objectsDir cwd, cacheDir cwd]

/-- A working directory without `.reprovm`. -/
structure NoStore (fs : FS) : Prop where
  cwd : fs.node fs.cwd = some .dir
  empty : ∀ q, fs.node (reprovmDir fs.cwd ++ q) = none

/-- A machine with one directory, empty, to work in. -/
def workDir : FS where
  cwd := [ascii "w"]
  node p := if p = [] ∨ p = [ascii "w"] then some .dir else none

theorem workDir_noStore : NoStore workDir where
  cwd := by decide
  empty q := by simp [workDir, reprovmDir]

theorem casInit_eq (fs : FS) : casInit fs (ascii ".") =
    match fs.mkdirAll (objectsParents ++ [objectsRoot]) with
    | (false, fs) => (false, fs)
    | (true, fs) => fs.mkdirAll [ascii ".", ascii "./.reprovm", cacheRoot] := rfl

/-- One more directory on top of those made so far. -/
theorem mkdirAll_next {fs : FS} {ps : List Path} {s : Bytes} {p : Path} {c : Bytes} (hs : s ≠ [])
    (hres : resolve fs.cwd s = p ++ [c]) (hn : (fs.addDirs ps).node (p ++ [c]) = none)
    (hp : (fs.addDirs ps).node p = some .dir) (ss : List Bytes) :
    (fs.addDirs ps).mkdirAll (s :: ss) = (fs.addDirs (ps ++ [p ++ [c]])).mkdirAll ss := by
  have h := FS.mkdirAll_cons hs (by rwa [FS.addDirs_cwd, hres])
    (by rwa [FS.addDirs_cwd, hres, List.dropLast_concat]) ss
  rw [h, FS.addDirs_addDirs, FS.addDirs_cwd, hres]

theorem NoStore.init_eq {fs : FS} (h : NoStore fs) :
    casInit fs (ascii ".") = (true, fs.addDirs (initDirs fs.cwd)) := by
  have hr : fs.node (reprovmDir fs.cwd) = none := by simpa using h.empty []
  have hc : fs.node (casDir fs.cwd) = none := h.empty [ascii "cas"]
  have ho : fs.node (objectsDir fs.cwd) = none := by
    simpa [objectsDir, casDir] using h.empty [ascii "cas", ascii "objects"]
  have hm : fs.node (cacheDir fs.cwd) = none := h.empty [ascii "cache"]
  have hnew : ∀ ps p, fs.node p = none → p ∈ ps → (fs.addDirs ps).node p = some .dir :=
    fun ps p hp hmem => by rw [FS.addDirs_node, if_pos ⟨hp, hmem⟩]
  have hold : ∀ ps p, fs.node p = none → p ∉ ps → (fs.addDirs ps).node p = none :=
    fun ps p hp hmem => by rw [FS.addDirs_node_of_notMem hmem, hp]
  have hcwd : ∀ ps, (fs.addDirs ps).node fs.cwd = some .dir := fun ps =>
    FS.addDirs_node_of_some h.cwd ps
  have h1 : (fs.addDirs []).mkdirAll (objectsParents ++ [objectsRoot])
      = (true, fs.addDirs [reprovmDir fs.cwd, casDir fs.cwd, objectsDir fs.cwd]) := by
    refine (FS.mkdirAll_exists (by decide) (hcwd []) [ascii "./.reprovm", ascii "./.reprovm/cas",
      objectsRoot]).trans ?_
    rw [mkdirAll_next (by decide) rfl (hold _ _ hr (by simp)) (hcwd _),
      mkdirAll_next (by decide) rfl (hold _ _ hc (by simp [reprovmDir]))
        (hnew _ _ hr (by simp [reprovmDir])),
      mkdirAll_next (by decide) rfl (hold _ _ ho (by simp [casDir, reprovmDir]))
        (hnew _ _ hc (by simp [casDir]))]
    rfl
  have h2 : (fs.addDirs [reprovmDir fs.cwd, casDir fs.cwd, objectsDir fs.cwd]).mkdirAll
      [ascii ".", ascii "./.reprovm", cacheRoot] = (true, fs.addDirs (initDirs fs.cwd)) := by
    have hcache : ascii "cache" ≠ ascii "cas" := by decide
    have hrd : (fs.addDirs [reprovmDir fs.cwd, casDir fs.cwd, objectsDir fs.cwd]).node
        (reprovmDir fs.cwd) = some .dir := hnew _ _ hr (by simp)
    refine (FS.mkdirAll_exists (by decide) (hcwd _) [ascii "./.reprovm", cacheRoot]).trans ?_
    refine (FS.mkdirAll_exists (by decide) hrd [cacheRoot]).trans ?_
    rw [mkdirAll_next (by decide) rfl
      (hold _ _ hm (by simp [objectsDir, casDir, reprovmDir, hcache])) hrd]
    rfl
  rw [FS.addDirs_nil] at h1
  rw [casInit_eq, h1]
  exact h2

end ReproVM
