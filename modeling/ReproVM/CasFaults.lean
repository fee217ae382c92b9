/-
# The store under I/O faults

The calls of `copy_file` and of the store once more, with what fails in them: an `fopen`, a read
that stops early, a write of which only the first bytes reach the file, a `rename`.  A stream is
buffered here: what its last flush loses, `fclose` reports, and nobody looks at that.

The store from memory publishes its object by a rename and looks at `fwrite`.  The store from a
file copies to the place of the object, takes an early end for the end of the file, and leaves
what it has written when it fails.  Where neither meets such a fault the store stays in order.
-/
import ReproVM.TaskSteps
import Mathlib.Data.List.TakeDrop

namespace ReproVM

open Bytes (ascii)
open FS (freadChunks)
open Lib (Run)

variable {fs fs' : FS}

/-! ## 1. Streams -/

/-- What the reads of a stream deliver: the file, or its first bytes and then an error, which the
loops take for the end. -/
def cut (stop : Option Nat) (data : Bytes) : Bytes := stop.elim data fun n => data.take n

/-- Only the first `room` bytes reach the file.  An `fwrite` says so, or only the `fclose`. -/
structure WriteFault where
  room : Nat
  seen : Bool

/-- The bytes that reach the file. -/
def written (fault : Option WriteFault) (data : Bytes) : Bytes := cut (fault.map WriteFault.room) data

/-- No `fwrite` comes up short. -/
def writeSucceeds (fault : Option WriteFault) (data : Bytes) : Bool :=
  fault.elim true fun w => !w.seen || data.length ≤ w.room

theorem cut_length_le (stop : Option Nat) (data : Bytes) : (cut stop data).length ≤ data.length := by
  cases stop with
  | none => exact Nat.le_refl _
  | some n => simp [cut, List.length_take]

/-- All the bytes get through where all are there. -/
theorem written_eq_iff (fault : Option WriteFault) (data : Bytes) :
    written fault data = data ↔ ∀ w, fault = some w → data.length ≤ w.room := by
  cases fault with
  | none => simp [written, cut]
  | some w => simp [written, cut, List.take_eq_self_iff]

theorem writeSucceeds_of_room {fault : Option WriteFault} {data : Bytes}
    (h : ∀ w, fault = some w → data.length ≤ w.room) : writeSucceeds fault data = true := by
  cases fault with
  | none => rfl
  | some w => simp [writeSucceeds, h w rfl]

theorem writeSucceeds_eq_true {fault : Option WriteFault} {data : Bytes} :
    writeSucceeds fault data = true ↔ ∀ w, fault = some w → w.seen = false ∨ data.length ≤ w.room := by
  cases fault with
  | none => simp [writeSucceeds]
  | some w => simp [writeSucceeds]

/-- A cut and a write that deliver the data deliver all of it. -/
theorem written_cut_eq {stop : Option Nat} {fault : Option WriteFault} {data : Bytes}
    (h : written fault (cut stop data) = data) : cut stop data = data ∧ written fault data = data := by
  have hlen : (written fault (cut stop data)).length ≤ (cut stop data).length := cut_length_le ..
  have hcut : cut stop data = data := by
    cases stop with
    | none => rfl
    | some n =>
      have hdata : data.length ≤ (cut (some n) data).length := by rwa [h] at hlen
      have htake : data.length ≤ n := by
        simp only [cut, Option.elim, List.length_take] at hdata
        omega
      exact List.take_of_length_le htake
  exact ⟨hcut, by rwa [hcut] at h⟩

namespace FS

/-- A loop of `fwrite` calls: it ends with the first that comes up short. -/
def fwriteLoop (fs : FS) (p : Path) : Option WriteFault → List Bytes → Bool × FS
  | _, [] => (true, fs)
  | none, buf :: bufs => fwriteLoop (fs.write p buf) p none bufs
  | some w, buf :: bufs =>
    if buf.length ≤ w.room then fwriteLoop (fs.write p buf) p (some ⟨w.room - buf.length, w.seen⟩) bufs
    else if w.seen then (false, fs.write p (buf.take w.room))
    else fwriteLoop (fs.write p (buf.take w.room)) p (some ⟨0, false⟩) bufs

/-- **What such a loop leaves.** -/
theorem fwriteLoop_eq {p : Path} {d : Bytes} (h : fs.node p = some (.file d))
    (fault : Option WriteFault) (bufs : List Bytes) :
    fs.fwriteLoop p fault bufs =
      (writeSucceeds fault bufs.flatten,
        fs.set p (some (.file (d ++ written fault bufs.flatten)))) := by
  induction bufs generalizing fs d fault with
  | nil =>
    have hsame : fs.set p (some (.file d)) = fs := set_same h
    cases fault <;> simp [fwriteLoop, writeSucceeds, written, cut, hsame]
  | cons buf bufs ih =>
    cases fault with
    | none =>
      rw [fwriteLoop, write_file h, ih (set_node_self ..), set_set]
      simp [writeSucceeds, written, cut]
    | some w =>
      rw [fwriteLoop, write_file h, write_file h, List.flatten_cons]
      simp only [ih (set_node_self ..), set_set]
      generalize bufs.flatten = rest
      by_cases hroom : buf.length ≤ w.room
      · have hlen : rest.length ≤ w.room - buf.length ↔ (buf ++ rest).length ≤ w.room := by
          rw [List.length_append]
          omega
        rw [if_pos hroom]
        simp only [writeSucceeds, written, cut, Option.elim, Option.map, hlen, List.take_append,
          List.take_of_length_le hroom, List.append_assoc]
      · have htake : (buf ++ rest).take w.room = buf.take w.room :=
          List.take_append_of_le_length (by omega)
        have hshort : ¬ (buf ++ rest).length ≤ w.room := by
          rw [List.length_append]
          omega
        rw [if_neg hroom]
        cases hs : w.seen <;>
          simp only [writeSucceeds, written, cut, Option.elim, Option.map, htake, hs, hshort] <;>
          simp

end FS

/-! ## 2. The functions -/

/-- What fails in one `copy_file`. -/
structure CopyFaults where
  openSrc : Bool
  openDst : Bool
  stop : Option Nat
  write : Option WriteFault

/-- What fails in one `cas_store_blob_from_file`: opening and reading the source to hash it, and
the copy. -/
structure FileFaults where
  openSrc : Bool
  stop : Option Nat
  copy : CopyFaults

/-- What fails in one `cas_store_blob_from_memory`. -/
structure MemoryFaults where
  openTmp : Bool
  write : Option WriteFault
  rename : Bool

def CopyFaults.none : CopyFaults := ⟨false, false, .none, .none⟩

def FileFaults.none : FileFaults := ⟨false, .none, .none⟩

def MemoryFaults.none : MemoryFaults := ⟨false, .none, false⟩

def FS.copyFileWith (f : CopyFaults) (fs : FS) (src dst : Bytes) : Bool × FS :=
  match if f.openSrc then none else fs.lookup src with
  | none => (false, fs)
  | some _ =>
    match if f.openDst then none else fs.openWrite dst with
    | none => (false, fs)
    | some fs' =>
      fs'.fwriteLoop (resolve fs.cwd dst) f.write (freadChunks (cut f.stop ((fs'.read src).getD [])))

/-- `cas_store_blob_from_memory` from the hash on. -/
def storeMemoryAsWith (f : MemoryFaults) (fs : FS) (data hex : Bytes) : Option Bytes × FS :=
  match makeObjectPath fs hex 2048 with
  | (none, fs) => (none, fs)
  | (some objPath, fs) =>
    if fs.fileExists objPath then (some hex, fs)
    else
      let tmp := snprintf 4096 (objPath ++ ascii ".tmp")
      match if f.openTmp then none else fs.openWrite tmp with
      | none => (none, fs)
      | some fs =>
        match fs.fwriteLoop (resolve fs.cwd tmp) f.write [data] with
        | (false, fs) => (none, fs.unlink tmp)
        | (true, fs) =>
          match if f.rename then none else fs.rename tmp objPath with
          | none => (none, fs.unlink tmp)
          | some fs => (some hex, fs)

def casStoreBlobFromMemoryWith (f : MemoryFaults) (fs : FS) (data : Bytes) : Option Bytes × FS :=
  storeMemoryAsWith f fs data (hexEncode (sha256Final (sha256Update (sha256Init .fresh) data)))

/-- `cas_store_blob_from_file` from the hash on. -/
def storeFileAsWith (f : CopyFaults) (fs : FS) (path hex : Bytes) : Option Bytes × FS :=
  match makeObjectPath fs hex 2048 with
  | (none, fs) => (none, fs)
  | (some objPath, fs) =>
    if fs.fileExists objPath then (some hex, fs)
    else
      match fs.copyFileWith f path objPath with
      | (false, fs) => (none, fs)
      | (true, fs) => (some hex, fs)

def casStoreBlobFromFileWith (f : FileFaults) (fs : FS) (path : Bytes) : Option Bytes × FS :=
  match if f.openSrc then none else fs.read path with
  | none => (none, fs)
  | some data =>
    storeFileAsWith f.copy fs path
      (hexEncode (sha256Final
        ((freadChunks (cut f.stop data)).foldl sha256Update (sha256Init .fresh))))

def casRestoreBlobToFileWith (f : CopyFaults) (fs : FS) (hash dest : Bytes) : Bool × FS :=
  match makeObjectPath fs hash 2048 with
  | (none, fs) => (false, fs)
  | (some objPath, fs) =>
    if fs.fileExists objPath then fs.copyFileWith f objPath dest else (false, fs)

/-! ## 3. Without faults -/

theorem FS.copyFileWith_none (fs : FS) (src dst : Bytes) :
    fs.copyFileWith .none src dst = fs.copyFile src dst := by
  rw [copyFileWith, copyFile]
  simp only [CopyFaults.none, Bool.false_eq_true, if_false]
  cases fs.lookup src with
  | none => rfl
  | some n =>
    cases ho : fs.openWrite dst with
    | none => rfl
    | some fs' =>
      rw [openWrite_eq] at ho
      split at ho
      · obtain rfl := Option.some.inj ho
        dsimp only
        rw [fwriteLoop_eq (set_node_self ..), foldl_write (set_node_self ..)]
        rfl
      · cases ho

theorem casRestoreBlobToFileWith_none (fs : FS) (hash dest : Bytes) :
    casRestoreBlobToFileWith .none fs hash dest = casRestoreBlobToFile fs hash dest := by
  rw [casRestoreBlobToFileWith, casRestoreBlobToFile]
  rcases makeObjectPath fs hash 2048 with ⟨_ | objPath, fs₁⟩
  · rfl
  · simp only [FS.copyFileWith_none]

theorem storeFileAsWith_none (fs : FS) (path hex : Bytes) :
    storeFileAsWith .none fs path hex = storeFileAs fs path hex := by
  rw [storeFileAsWith, storeFileAs]
  rcases makeObjectPath fs hex 2048 with ⟨_ | objPath, fs₁⟩
  · rfl
  · rcases h : fs₁.copyFile path objPath with ⟨_ | _, fs₂⟩ <;> simp only [FS.copyFileWith_none, h]

theorem casStoreBlobFromFileWith_none (fs : FS) (path : Bytes) :
    casStoreBlobFromFileWith .none fs path = casStoreBlobFromFile fs path := by
  have hopen : (if FileFaults.none.openSrc then none else fs.read path) = fs.read path := rfl
  have hcut : ∀ data, cut FileFaults.none.stop data = data := fun _ => rfl
  have hcopy : FileFaults.none.copy = .none := rfl
  rw [casStoreBlobFromFileWith, casStoreBlobFromFile, hopen]
  cases fs.read path with
  | none => rfl
  | some data => simp only [hcut, hcopy, storeFileAsWith_none]

theorem storeMemoryAsWith_none (fs : FS) (data hex : Bytes) :
    storeMemoryAsWith .none fs data hex = storeMemoryAs fs data hex := by
  rw [storeMemoryAsWith, storeMemoryAs]
  rcases makeObjectPath fs hex 2048 with ⟨_ | objPath, fs₁⟩
  · rfl
  · cases hopen : fs₁.openWrite (snprintf 4096 (objPath ++ ascii ".tmp")) with
    | none => simp only [MemoryFaults.none, Bool.false_eq_true, if_false, hopen]
    | some fs₂ =>
      cases hren : (fs₂.write (resolve fs₂.cwd (snprintf 4096 (objPath ++ ascii ".tmp"))) data).rename
          (snprintf 4096 (objPath ++ ascii ".tmp")) objPath <;>
        simp only [MemoryFaults.none, Bool.false_eq_true, if_false, FS.fwriteLoop, hopen, hren]

theorem casStoreBlobFromMemoryWith_none (fs : FS) (data : Bytes) :
    casStoreBlobFromMemoryWith .none fs data = casStoreBlobFromMemory fs data := by
  rw [casStoreBlobFromMemoryWith, casStoreBlobFromMemory, storeMemoryAsWith_none]

/-! ## 4. What the stores leave, in a store in order -/

theorem FS.copyFileWith_eq (f : CopyFaults) (fs : FS) (src dst : Bytes) :
    fs.copyFileWith f src dst =
      if f.openSrc = false ∧ fs.fileExists src ∧ f.openDst = false ∧ fs.Writable dst then
        (writeSucceeds f.write (cut f.stop
            (((fs.set (resolve fs.cwd dst) (some (.file []))).read src).getD [])),
          fs.set (resolve fs.cwd dst) (some (.file (written f.write (cut f.stop
            (((fs.set (resolve fs.cwd dst) (some (.file []))).read src).getD []))))))
      else (false, fs) := by
  rw [copyFileWith, fileExists, openWrite_eq]
  by_cases hsrc : f.openSrc = true
  · simp [hsrc]
  · rw [if_neg hsrc]
    cases hl : fs.lookup src with
    | none => simp
    | some n =>
      by_cases hdst : f.openDst = true
      · simp [hdst]
      · rw [if_neg hdst]
        by_cases hw : fs.Writable dst
        · simp only [if_pos hw]
          rw [fwriteLoop_eq (set_node_self ..), set_set, freadChunks_flatten, List.nil_append]
          rw [if_pos ⟨by simpa using hsrc, rfl, by simpa using hdst, hw⟩]
        · simp [hw]

/-- The result and the tree of a store from a file that holds `data`, under the hash `h`. -/
def storedFile (f : CopyFaults) (fs : FS) (data h : Bytes) : Option Bytes × FS :=
  if fs.node (objectPath fs.cwd h) ≠ none then (some h, fs.addDirs (storeDirs fs.cwd h))
  else if f.openSrc ∨ f.openDst then (none, fs.addDirs (storeDirs fs.cwd h))
  else (if writeSucceeds f.write (cut f.stop data) then some h else none,
    (fs.addDirs (storeDirs fs.cwd h)).set (objectPath fs.cwd h)
      (some (.file (written f.write (cut f.stop data)))))

/-- **Storing a readable file.** -/
theorem storeFileAsWith_ready (hready : StoreReady fs) (f : CopyFaults) {path data h : Bytes}
    (hh : IsHash h) (hr : fs.read path = some data) :
    storeFileAsWith f fs path h = storedFile f fs data h := by
  have hobj : (fs.addDirs (storeDirs fs.cwd h)).node (objectPath fs.cwd h)
      = fs.node (objectPath fs.cwd h) :=
    FS.addDirs_node_of_notMem (objectPath_notMem_storeDirs fs.cwd h)
  rw [storeFileAsWith, storedFile, hready.makeObjectPath hh]
  simp only [fileExists_objectFile hh, FS.addDirs_cwd, hobj]
  cases hn : fs.node (objectPath fs.cwd h) with
  | some n => simp
  | none =>
    have hread := read_addDirs hr (storeDirs fs.cwd h)
    have hres := resolve_object hh fs.cwd
    have hne : resolve fs.cwd path ≠ objectPath fs.cwd h := fun he =>
      FS.node_ne_none_of_read hread (by rw [FS.addDirs_cwd, he, hobj, hn])
    have hw := hready.writable_object hh hn
    have hex : (fs.addDirs (storeDirs fs.cwd h)).fileExists path = true := by
      rw [fileExists_iff, hread, Option.isSome_some]
    have hsrc : ((fs.addDirs (storeDirs fs.cwd h)).set (objectPath fs.cwd h) (some (.file []))).read
        path = some data := by
      rw [← hread]
      exact FS.read_congr rfl (FS.set_node_ne _ _ hne)
    simp only [Option.isSome_none, Bool.false_eq_true, if_false, FS.copyFileWith_eq, FS.addDirs_cwd,
      hres, hsrc, Option.getD_some, hex, hw, true_and, and_true, ne_eq, not_true_eq_false]
    by_cases hf : f.openSrc ∨ f.openDst
    · rw [if_pos hf, if_neg fun h => ?_]
      rcases hf with hf | hf
      · simp [hf] at h
      · simp [hf] at h
    · have hnot : f.openSrc = false ∧ f.openDst = false := by simpa [not_or] using hf
      rw [if_neg hf, if_pos hnot]
      cases writeSucceeds f.write (cut f.stop data) <;> rfl

theorem casStoreBlobFromFileWith_ready (hready : StoreReady fs) (f : FileFaults) (path : Bytes) :
    casStoreBlobFromFileWith f fs path =
      match if f.openSrc then none else fs.read path with
      | none => (none, fs)
      | some data => storedFile f.copy fs data (blobHash (cut f.stop data)) := by
  rw [casStoreBlobFromFileWith]
  simp only [sha256_freadChunks]
  cases f.openSrc with
  | true => rfl
  | false =>
    simp only [Bool.false_eq_true, if_false]
    cases hr : fs.read path with
    | none => rfl
    | some data => exact storeFileAsWith_ready hready f.copy (isHash_blobHash _) hr

/-- A copy that does not open its files leaves a new object unstored. -/
theorem casStoreBlobFromFileWith_unopened (hready : StoreReady fs) {f : FileFaults} {path data : Bytes}
    (hsrc : f.openSrc = false) (hr : fs.read path = some data)
    (hobj : fs.node (objectPath fs.cwd (blobHash (cut f.stop data))) = none)
    (hopen : f.copy.openSrc ∨ f.copy.openDst) : (casStoreBlobFromFileWith f fs path).1 = none := by
  rw [casStoreBlobFromFileWith_ready hready, hsrc, hr]
  simp only [Bool.false_eq_true, if_false]
  rw [storedFile, if_neg (not_not_intro hobj), if_pos hopen]

/-- The result and the tree of a store from memory. -/
def storedMemory (f : MemoryFaults) (fs : FS) (data h : Bytes) : Option Bytes × FS :=
  if fs.node (objectPath fs.cwd h) ≠ none then (some h, fs.addDirs (storeDirs fs.cwd h))
  else if f.openTmp ∨ f.rename ∨ writeSucceeds f.write data = false then
    (none, fs.addDirs (storeDirs fs.cwd h))
  else (some h, (fs.addDirs (storeDirs fs.cwd h)).set (objectPath fs.cwd h)
    (some (.file (written f.write data))))

/-- A new file that is unlinked leaves nothing. -/
theorem unlink_new {tmp : Bytes} (hname : namesDir tmp = false)
    (hnone : fs.node (resolve fs.cwd tmp) = none) (data : Bytes) :
    (fs.set (resolve fs.cwd tmp) (some (.file data))).unlink tmp = fs := by
  have hlook : (fs.set (resolve fs.cwd tmp) (some (.file data))).lookup tmp = some (.file data) := by
    rw [FS.lookup, if_neg (FS.ne_nil_of_namesDir hname), FS.set_cwd, FS.set_node_self]
    simp [hname]
  rw [FS.unlink, hlook]
  simp only [FS.set_cwd, FS.set_set]
  exact FS.set_same hnone

/-- **Storing from memory**, where no temporary file is left over: the object is published by the
rename, or not at all. -/
theorem storeMemoryAsWith_ready (hready : StoreReady fs) (f : MemoryFaults) {h : Bytes}
    (hh : IsHash h) (htmp : fs.node (objectDir fs.cwd h ++ [h.drop 2 ++ ascii ".tmp"]) = none)
    (data : Bytes) : storeMemoryAsWith f fs data h = storedMemory f fs data h := by
  have hobj : (fs.addDirs (storeDirs fs.cwd h)).node (objectPath fs.cwd h)
      = fs.node (objectPath fs.cwd h) :=
    FS.addDirs_node_of_notMem (objectPath_notMem_storeDirs fs.cwd h)
  rw [storeMemoryAsWith, storedMemory, hready.makeObjectPath hh]
  simp only [fileExists_objectFile hh, FS.addDirs_cwd, hobj]
  cases hn : fs.node (objectPath fs.cwd h) with
  | some n => simp
  | none =>
    obtain ⟨hsn, hwt, hnt, hwo, hne⟩ := hready.tmpFile hh htmp hn
    have hres := resolve_object hh fs.cwd
    have hunlink := unlink_new hwt.name hnt (written f.write data)
    have hrename := FS.rename_new hwt hnt hwo hne (written f.write data)
    simp only [FS.addDirs_cwd, hres] at hunlink hrename
    simp only [Option.isSome_none, Bool.false_eq_true, if_false, hsn, ne_eq, not_true_eq_false]
    cases hopen : f.openTmp with
    | true => simp
    | false =>
      simp only [Bool.false_eq_true, if_false, FS.openWrite_eq, if_pos hwt, FS.set_cwd, false_or]
      rw [FS.fwriteLoop_eq (FS.set_node_self ..), FS.set_set]
      simp only [List.flatten_cons, List.flatten_nil, List.append_nil, List.nil_append,
        FS.addDirs_cwd]
      cases hok : writeSucceeds f.write data with
      | false => simp [hunlink]
      | true =>
        cases hren : f.rename with
        | true => simp [hunlink]
        | false => simp [hrename]

theorem casStoreBlobFromMemoryWith_ready (hready : StoreReady fs) (f : MemoryFaults) {data : Bytes}
    (htmp : fs.node (objectDir fs.cwd (blobHash data) ++
      [(blobHash data).drop 2 ++ ascii ".tmp"]) = none) :
    casStoreBlobFromMemoryWith f fs data = storedMemory f fs data (blobHash data) := by
  have hhex : hexEncode (sha256Final (sha256Update (sha256Init .fresh) data)) = blobHash data := by
    rw [blobHash, sha256]
  rw [casStoreBlobFromMemoryWith, hhex]
  exact storeMemoryAsWith_ready hready f (isHash_blobHash data) htmp data

end ReproVM
