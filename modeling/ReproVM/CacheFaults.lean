/-
# What a hit promises, under faults

`try_load_task_record` once more, with what fails in it: opening the record, and each of the copies
that restore the outputs.  A hit is to mean that every declared output was restored; the function
looks neither at what a restore returns nor at whether each output has its line.  `LoadSafe` says
when the promise holds all the same.
-/
import ReproVM.CasFaults

namespace ReproVM

open Bytes (ascii)

variable {fs fs' : FS} {task : Task}

/-! ## 1. The lookup -/

/-- What fails in one `try_load_task_record`: opening the record, and the copies, by their number. -/
structure LoadFaults where
  openRecord : Bool
  restore : Nat → CopyFaults

def LoadFaults.none : LoadFaults := ⟨false, fun _ => .none⟩

/-- The calls of `cas_restore_blob_to_file`, in the order of the two loops. -/
def restoreCalls (outputs : List Bytes) (entries : List (Bytes × Bytes)) : List (Bytes × Bytes) :=
  entries.flatMap fun entry => (outputs.filter fun out => out = entry.1).map fun out => (entry.2, out)

/-- What each call returns is ignored. -/
def restoreWith (f : Nat → CopyFaults) (fs : FS) : List (Bytes × Bytes) → FS
  | [] => fs
  | call :: calls =>
    restoreWith (fun n => f (n + 1)) (casRestoreBlobToFileWith (f 0) fs call.1 call.2).2 calls

def tryLoadTaskRecordWith (f : LoadFaults) (fs : FS) (task : Task) :
    Except Fault (Int × Task × FS) :=
  match task.taskHash with
  | none => .ok (0, task, fs)
  | some taskHash =>
    if ¬ fs.fileExists (metaPath taskHash) then .ok (0, task, fs)
    else
      match if f.openRecord then none else fs.read (metaPath taskHash) with
      | none => .ok (-1, task, fs)
      | some content =>
        match readRecord content with
        | .error e => .error e
        | .ok r =>
          .ok (1, { task with resultHash := some r.resultHash, status := .skipped },
            restoreWith f.restore fs (restoreCalls task.outputs r.outputs))

theorem restoreWith_none (fs : FS) (outputs : List Bytes) (entries : List (Bytes × Bytes)) :
    restoreWith (fun _ => .none) fs (restoreCalls outputs entries) = restoreAll fs outputs entries := by
  have hfold : ∀ (calls : List (Bytes × Bytes)) (fs : FS), restoreWith (fun _ => .none) fs calls =
      calls.foldl (fun fs call => (casRestoreBlobToFile fs call.1 call.2).2) fs := by
    intro calls
    induction calls with
    | nil => exact fun _ => rfl
    | cons call calls ih =>
      intro fs
      rw [restoreWith, ih, casRestoreBlobToFileWith_none, List.foldl_cons]
  rw [hfold, restoreCalls, List.foldl_flatMap, restoreAll]
  congr 1
  funext fs entry
  rw [List.foldl_map, List.foldl_filter, restoreOutput]
  congr 1
  funext fs out
  simp

theorem tryLoadTaskRecordWith_none (fs : FS) (task : Task) :
    tryLoadTaskRecordWith .none fs task = tryLoadTaskRecord fs task := by
  rw [tryLoadTaskRecordWith, tryLoadTaskRecord]
  simp only [LoadFaults.none, restoreWith_none, Bool.false_eq_true, if_false]
  rfl

/-! ## 2. One restore -/

/-- What the blob of a hash holds, if it is a regular file. -/
def blobFile (fs : FS) (hash : Bytes) : Option Bytes :=
  match makeObjectPath fs hash 2048 with
  | (none, _) => none
  | (some objPath, fs) =>
    match fs.lookup objPath with
    | some (.file data) => some data
    | _ => none

/-- The call succeeds, and the destination holds the blob afterwards. -/
def Restored (f : CopyFaults) (fs : FS) (hash dest : Bytes) : Prop :=
  (casRestoreBlobToFileWith f fs hash dest).1 = true ∧
    ∃ data, blobFile fs hash = some data ∧
      (casRestoreBlobToFileWith f fs hash dest).2.read dest = some data

/-- When it does: the blob is a regular file and not the destination, which can be written, and
nothing of the copy fails. -/
def RestoreSafe (f : CopyFaults) (fs : FS) (hash dest : Bytes) : Prop :=
  match makeObjectPath fs hash 2048 with
  | (none, _) => False
  | (some objPath, fs) => ∃ data, fs.lookup objPath = some (.file data) ∧ fs.Writable dest ∧
      (data = [] ∨ resolve fs.cwd objPath ≠ resolve fs.cwd dest) ∧
      f.openSrc = false ∧ f.openDst = false ∧ cut f.stop data = data ∧
      ∀ w, f.write = some w → data.length ≤ w.room

theorem FS.lookup_file {s data : Bytes} (hl : fs.lookup s = some (.file data)) :
    namesDir s = false := by
  unfold FS.lookup at hl
  split at hl
  · cases hl
  · cases hn : fs.node (resolve fs.cwd s) with
    | none => simp [hn] at hl
    | some n =>
      cases n with
      | dir => simp [hn] at hl
      | file d =>
        cases hname : namesDir s with
        | false => rfl
        | true => simp [hn, hname] at hl

/-- What the copy reads of its source once its destination is empty. -/
theorem read_truncated {src dst data : Bytes} (hl : fs.lookup src = some (.file data)) :
    (fs.set (resolve fs.cwd dst) (some (.file []))).read src =
      some (if resolve fs.cwd src = resolve fs.cwd dst then [] else data) := by
  by_cases hsame : resolve fs.cwd src = resolve fs.cwd dst
  · rw [if_pos hsame, ← hsame]
    exact FS.read_set_self (FS.lookup_file hl) []
  · rw [if_neg hsame, FS.read_congr (FS.set_cwd ..) (FS.set_node_ne _ _ hsame), FS.read, hl]

/-- The copy delivers the data: it does not read what it has emptied, and nothing stops early. -/
theorem copies_iff {f : CopyFaults} {data : Bytes} (same : Prop) [Decidable same] :
    writeSucceeds f.write (cut f.stop (if same then [] else data)) = true ∧
        written f.write (cut f.stop (if same then [] else data)) = data ↔
      (data = [] ∨ ¬ same) ∧ cut f.stop data = data ∧ ∀ w, f.write = some w → data.length ≤ w.room := by
  have hnil : ∀ stop, cut stop [] = ([] : Bytes) := by
    intro stop
    cases stop <;> simp [cut]
  by_cases hsame : same
  · rw [if_pos hsame, hnil, written, hnil]
    constructor
    · rintro ⟨-, rfl⟩
      exact ⟨.inl rfl, hnil _, fun w _ => Nat.zero_le _⟩
    · rintro ⟨rfl | h, -⟩
      · exact ⟨writeSucceeds_of_room fun w _ => Nat.zero_le _, rfl⟩
      · exact absurd hsame h
  · rw [if_neg hsame]
    constructor
    · rintro ⟨-, h⟩
      obtain ⟨hcut, hwhole⟩ := written_cut_eq h
      exact ⟨.inr hsame, hcut, (written_eq_iff ..).mp hwhole⟩
    · rintro ⟨-, hcut, hroom⟩
      rw [hcut]
      exact ⟨writeSucceeds_of_room hroom, (written_eq_iff ..).mpr hroom⟩

/-- **One restore.** -/
theorem restored_iff (f : CopyFaults) (fs : FS) (hash dest : Bytes) :
    Restored f fs hash dest ↔ RestoreSafe f fs hash dest := by
  rw [Restored, casRestoreBlobToFileWith, blobFile, RestoreSafe]
  rcases makeObjectPath fs hash 2048 with ⟨_ | objPath, fs⟩
  · simp
  · dsimp only
    cases hl : fs.lookup objPath with
    | none => simp
    | some n =>
      cases n with
      | dir => simp
      | file data =>
        have hex : fs.fileExists objPath = true := by rw [FS.fileExists, hl, Option.isSome_some]
        rw [if_pos hex, FS.copyFileWith_eq, read_truncated hl, Option.getD_some]
        simp only [hex, true_and, Option.some.injEq, Node.file.injEq, exists_eq_left']
        by_cases hopen : f.openSrc = false ∧ f.openDst = false ∧ fs.Writable dest
        · rw [if_pos hopen]
          dsimp only
          rw [FS.read_set_self hopen.2.2.name, Option.some.injEq, copies_iff]
          constructor
          · rintro ⟨h1, h2, h3⟩
            exact ⟨hopen.2.2, h1, hopen.1, hopen.2.1, h2, h3⟩
          · rintro ⟨-, h1, -, -, h2, h3⟩
            exact ⟨h1, h2, h3⟩
        · rw [if_neg hopen]
          constructor
          · rintro ⟨h, -⟩
            cases h
          · rintro ⟨hw, -, h1, h2, -⟩
            exact absurd ⟨h1, h2, hw⟩ hopen

/-! ## 3. A hit -/

/-- A property of every restore, in the state before it. -/
def Along (P : CopyFaults → FS → Bytes → Bytes → Prop) (f : Nat → CopyFaults) (fs : FS) :
    List (Bytes × Bytes) → Prop
  | [] => True
  | call :: calls => P (f 0) fs call.1 call.2 ∧
      Along P (fun n => f (n + 1)) (casRestoreBlobToFileWith (f 0) fs call.1 call.2).2 calls

theorem along_congr {P Q : CopyFaults → FS → Bytes → Bytes → Prop}
    (h : ∀ f fs hash dest, P f fs hash dest ↔ Q f fs hash dest) (f : Nat → CopyFaults) (fs : FS)
    (calls : List (Bytes × Bytes)) : Along P f fs calls ↔ Along Q f fs calls := by
  induction calls generalizing f fs with
  | nil => exact Iff.rfl
  | cons call calls ih => rw [Along, Along, h, ih]

/-- What a lookup promises: it returns 1, 0 or -1, and 1 only where the record names every declared
output and every restore has restored its output. -/
def LoadSound (f : LoadFaults) (fs : FS) (task : Task) (key : Bytes) : Prop :=
  ∃ ret task' fs', tryLoadTaskRecordWith f fs task = .ok (ret, task', fs') ∧
    (ret = 0 ∨ ret = -1 ∨ ret = 1 ∧ ∃ content r, fs.read (metaPath key) = some content ∧
      readRecord content = .ok r ∧
      (∀ out ∈ task.outputs, ∃ hash, (out, hash) ∈ r.outputs) ∧
      Along Restored f.restore fs (restoreCalls task.outputs r.outputs))

/-- When it keeps that: there is no record, or it cannot be opened, or there is room for its lines,
it names every declared output, and every restore is safe where it is made. -/
def LoadSafe (f : LoadFaults) (fs : FS) (task : Task) (key : Bytes) : Prop :=
  fs.read (metaPath key) = none ∨ f.openRecord ∨
    ∃ content r, fs.read (metaPath key) = some content ∧ readRecord content = .ok r ∧
      (∀ out ∈ task.outputs, ∃ hash, (out, hash) ∈ r.outputs) ∧
      Along RestoreSafe f.restore fs (restoreCalls task.outputs r.outputs)

/-- A task with one output. -/
def oneOutput : Task :=
  { taskNew (ascii "t") with outputs := [ascii "o"], taskHash := some (ascii "k") }

/-- Its record, with nothing in it. -/
def emptyRecord : FS :=
  (makeTree []).set [ascii "w", ascii ".reprovm", ascii "cache", ascii "k.meta"] (some (.file []))

end ReproVM
