/-
# The cache: task hashes, records, and `execute_task`

The second half of `task.c`.  `compute_task_hash` stores the inputs and hashes a text made of the
command, the sorted hashes of the inputs and what it appends for the dependencies; the hash is the
name of the record that `write_task_record` writes and `try_load_task_record` reads, restoring the
outputs it names; `compute_result_hash` hashes the outputs; `execute_task` puts them together.

A function that changes `*task` returns the task; the `strcat` calls on a buffer of 4096 bytes
only lengthen it, so they stay inside it exactly when the finished text does.  A stream that is
written is taken as unbuffered.
-/
import ReproVM.Cas
import ReproVM.Lib.ExchangeSort
import ReproVM.Task

namespace ReproVM

open Bytes (ascii)

/-! ## 1. `compute_task_hash` -/

/-- The loop that stores the inputs; it stops at the first that fails. -/
def storeInputs (fs : FS) : List Bytes → Option (List Bytes) × FS
  | [] => (some [], fs)
  | path :: paths =>
    match casStoreBlobFromFile fs path with
    | (none, fs) => (none, fs)
    | (some h, fs) =>
      match storeInputs fs paths with
      | (none, fs) => (none, fs)
      | (some hs, fs) => (some (h :: hs), fs)

/-- The double loop over an array of strings, `strcmp(a[i], a[j]) > 0`. -/
def sortStrings (l : List Bytes) : List Bytes := Lib.exchangeSort (fun a b => 0 < strcmp a b) l

/-- The text that is hashed.  What is appended for a dependency is the empty string. -/
def taskText (task : Task) (inputHashes : List Bytes) : Bytes :=
  ascii "cmd=" ++ task.cmd.getD [] ++ ascii "\n" ++
    (if task.inputs = [] then ascii "inputs=\n"
      else ascii "inputs=" ++ joinStrings (sortStrings inputHashes) (ascii ",") ++ ascii "\n") ++
    (if task.deps = [] then ascii "deps=\n"
      else ascii "deps=" ++ joinStrings (task.deps.map fun _ => ascii "") (ascii ",") ++ ascii "\n")

/-- `blobHash` is also what the function runs on its buffer: init, update, final, `hex_encode`. -/
def computeTaskHash (fs : FS) (task : Task) : Except Fault (Bool × Task × FS) :=
  match storeInputs fs task.inputs with
  | (none, fs) => .ok (false, task, fs)
  | (some inputHashes, fs) =>
    let buf := taskText task inputHashes
    if buf.length < 4096 then .ok (true, { task with taskHash := some (blobHash buf) }, fs)
    else .error .bufferOverflow

/-! ## 2. Records -/

/-- `"%s/%s%s"` of the cache root, the task hash and `META_EXT`. -/
def metaPath (taskHash : Bytes) : Bytes :=
  snprintf 2048 (cacheRoot ++ 47 :: taskHash ++ ascii ".meta")

/-- What the loop over the lines of a record collects. -/
structure Record where
  resultHash : Bytes
  outputs : List (Bytes × Bytes)
deriving DecidableEq

/-- One line of a record; the arrays have room for 64 outputs. -/
def readRecordLine (r : Record) (line : Bytes) : Except Fault Record :=
  let line := trim (cstr line)
  if startsWith line (ascii "result_hash:") then
    -- strncpy of 255 bytes into a buffer of 256
    .ok { r with resultHash := ((line.drop 12).dropWhile isspace).take 255 }
  else if startsWith line (ascii "output ") then
    match strtokAll 32 (line.drop 7) with
    | fname :: h :: _ =>
      if r.outputs.length < 64 then .ok { r with outputs := r.outputs ++ [(fname, h)] }
      else .error .bufferOverflow
    | _ => .ok r
  else .ok r

def readRecord (content : Bytes) : Except Fault Record :=
  (getlines content).foldlM readRecordLine ⟨[], []⟩

/-- The restores for one line of a record: every declared output of that name. -/
def restoreOutput (fs : FS) (outputs : List Bytes) (entry : Bytes × Bytes) : FS :=
  outputs.foldl (fun fs out => if out = entry.1 then (casRestoreBlobToFile fs entry.2 out).2 else fs)
    fs

/-- Returns 1 for a hit, 0 without a record, -1 when it cannot be opened. -/
def tryLoadTaskRecord (fs : FS) (task : Task) : Except Fault (Int × Task × FS) :=
  match task.taskHash with
  | none => .ok (0, task, fs)
  | some taskHash =>
    if ¬ fs.fileExists (metaPath taskHash) then .ok (0, task, fs)
    else
      match fs.read (metaPath taskHash) with
      | none => .ok (-1, task, fs)
      | some content =>
        match readRecord content with
        | .error e => .error e
        | .ok r =>
          .ok (1, { task with resultHash := some r.resultHash, status := .skipped },
            r.outputs.foldl (fun fs entry => restoreOutput fs task.outputs entry) fs)

/-- The loop of `write_task_record` over the outputs; one that cannot be stored has no line. -/
def writeOutputs (fs : FS) (p : Path) : List Bytes → FS
  | [] => fs
  | out :: outs =>
    match casStoreBlobFromFile fs out with
    | (none, fs) => writeOutputs fs p outs
    | (some h, fs) =>
      writeOutputs (fs.write p (ascii "output " ++ out ++ ascii " " ++ h ++ ascii "\n")) p outs

def writeTaskRecord (fs : FS) (task : Task) : Bool × FS :=
  match task.taskHash with
  | none => (false, fs)
  | some taskHash =>
    match fs.openWrite (metaPath taskHash) with
    | none => (false, fs)
    | some fs =>
      let p := resolve fs.cwd (metaPath taskHash)
      let fs := fs.write p (ascii "task_hash: " ++ taskHash ++ ascii "\n")
      let fs := fs.write p (ascii "result_hash: " ++ task.resultHash.getD [] ++ ascii "\n")
      (true, writeOutputs fs p task.outputs)

/-! ## 3. `execute_task` -/

/-- The hashes of the outputs, the empty string for one that is missing or cannot be stored. -/
def storeOutputs (fs : FS) : List Bytes → List Bytes × FS
  | [] => ([], fs)
  | out :: outs =>
    if fs.fileExists out then
      let r := casStoreBlobFromFile fs out
      let rs := storeOutputs r.2 outs
      (r.1.getD [] :: rs.1, rs.2)
    else
      let rs := storeOutputs fs outs
      ([] :: rs.1, rs.2)

def computeResultHash (fs : FS) (task : Task) : Except Fault (Task × FS) :=
  let (hashes, fs) := storeOutputs fs task.outputs
  let buf := joinStrings (sortStrings hashes) (ascii ",")
  if buf.length < 4096 then .ok ({ task with resultHash := some (blobHash buf) }, fs)
  else .error .bufferOverflow

/-- A command as `system` runs it: the exit status and the tree it leaves. -/
abbrev System := Bytes → FS → Int × FS

/-- `system(task->cmd)`; with NULL it only says that there is a shell. -/
def system (sys : System) (cmd : Option Bytes) (fs : FS) : Int × FS :=
  match cmd with
  | none => (1, fs)
  | some cmd => sys cmd fs

/-- What `execute_task` leaves: its result (0 is `true`), the task, the tree, and whether it
called `system`. -/
structure Exec where
  ok : Bool
  task : Task
  fs : FS
  ran : Bool

/-- `execute_task` when the cache has no usable record. -/
def runTask (sys : System) (fs : FS) (task : Task) : Except Fault Exec := do
  let (ret, fs) := system sys task.cmd fs
  if ret ≠ 0 then return ⟨false, { task with status := .failed }, fs, true⟩
  let (task, fs) ← computeResultHash fs task
  let (ok, fs) := writeTaskRecord fs task
  if ok then return ⟨true, { task with status := .success }, fs, true⟩
  else return ⟨false, { task with status := .failed }, fs, true⟩

/-- `compute_task_hash` where the task has no hash yet. -/
def ensureTaskHash (fs : FS) (task : Task) : Except Fault (Bool × Task × FS) :=
  match task.taskHash with
  | some _ => .ok (true, task, fs)
  | none => computeTaskHash fs task

def executeTask (sys : System) (fs : FS) (task : Task) : Except Fault Exec := do
  let task := { task with status := .running }
  let (ok, task, fs) ← ensureTaskHash fs task
  if ¬ ok then return ⟨false, { task with status := .failed }, fs, false⟩
  let (cacheHit, task, fs) ← tryLoadTaskRecord fs task
  if cacheHit = 1 then return ⟨true, { task with status := .skipped }, fs, false⟩
  runTask sys fs task

/-- The state of a program between two calls: its tasks and the tree. -/
structure World where
  tasks : TaskList
  fs : FS

end ReproVM
