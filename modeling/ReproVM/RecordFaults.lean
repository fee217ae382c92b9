/-
# Writing a record, under faults and crashes

`write_task_record` once more, with what fails in it.  The record's file has its name from the
`fopen` on, and its lines are printed between the stores of the outputs; an output whose store fails
is passed over, what `fprintf` and `fclose` return is not looked at, and a crash may come anywhere.
The store from memory writes a temporary file and renames it; here nothing does.

The record is there as a whole, or not at all, exactly where its file is not opened and held
nothing else before, or where it is opened and nothing that matters fails until its last byte.
-/
import ReproVM.CacheFaults

namespace ReproVM

open Bytes (ascii)

variable {fs fs' : FS} {task : Task} {p : Path}

/-! ## 1. The function -/

/-- What fails for one output: its store, and its line, of which only the first bytes may reach the
file. -/
structure PassFaults where
  store : FileFaults
  print : Option Nat

/-- A crash in the store of an output, after some calls of `mkdir` or in the copy; behind the last
output it comes before the `fclose`. -/
structure Crash where
  /-- the outputs before it -/
  passes : Nat
  mkdirs : Option Nat

/-- What fails in one `write_task_record`.  Of each line the bytes are given that the file has in
the end: an `fprintf` that fails loses some, and so do an `fclose` that fails and a crash.  A crash
before or in a `fprintf` is one in the store behind it, with less of the line; a crash before the
`fopen` leaves what an `fopen` that fails leaves. -/
structure RecordFaults where
  openMeta : Bool
  taskHash : Option Nat
  resultHash : Option Nat
  pass : Nat → PassFaults
  crash : Option Crash

def RecordFaults.none : RecordFaults := ⟨false, .none, .none, fun _ => ⟨.none, .none⟩, .none⟩

/-- The outputs that the loop gets through. -/
def RecordFaults.passed (f : RecordFaults) (outputs : List Bytes) : List Bytes :=
  f.crash.elim outputs fun c => outputs.take c.passes

/-- The outputs that it does not get through. -/
def RecordFaults.left (f : RecordFaults) (outputs : List Bytes) : List Bytes :=
  f.crash.elim [] fun c => outputs.drop c.passes

/-- One pass of the loop over the outputs. -/
def writeOutputWith (f : PassFaults) (fs : FS) (p : Path) (out : Bytes) : FS :=
  match casStoreBlobFromFileWith f.store fs out with
  | (none, fs) => fs
  | (some h, fs) =>
    fs.write p (cut f.print (ascii "output " ++ out ++ ascii " " ++ h ++ ascii "\n"))

def writeOutputsWith (f : Nat → PassFaults) (fs : FS) (p : Path) : List Bytes → FS
  | [] => fs
  | out :: outs => writeOutputsWith (fun n => f (n + 1)) (writeOutputWith (f 0) fs p out) p outs

/-- What a store leaves that a crash interrupts.  The `mkdir` calls are those of
`make_object_path`; in the copy the faults say what was written by then. -/
def interruptedStore (f : FileFaults) (mkdirs : Option Nat) (fs : FS) (path : Bytes) : FS :=
  match mkdirs with
  | none => (casStoreBlobFromFileWith f fs path).2
  | some n =>
    match if f.openSrc then none else fs.read path with
    | none => fs
    | some data =>
      (fs.mkdirAll ((objectsParents ++
        [objectsRoot, objectsRoot ++ 47 :: (blobHash (cut f.stop data)).take 2]).take n)).2

/-- What a crash leaves, if there is one. -/
def RecordFaults.interrupted (f : RecordFaults) (fs : FS) (outputs : List Bytes) : FS :=
  match f.crash, f.left outputs with
  | some c, out :: _ => interruptedStore (f.pass c.passes).store c.mkdirs fs out
  | _, _ => fs

/-- Whether 0 is returned, and the tree that is left.  A call that crashes returns nothing. -/
def writeTaskRecordWith (f : RecordFaults) (fs : FS) (task : Task) : Bool × FS :=
  match task.taskHash with
  | none => (false, fs)
  | some taskHash =>
    match if f.openMeta then none else fs.openWrite (metaPath taskHash) with
    | none => (false, fs)
    | some fs =>
      let p := resolve fs.cwd (metaPath taskHash)
      let fs := fs.write p (cut f.taskHash (ascii "task_hash: " ++ taskHash ++ ascii "\n"))
      let fs := fs.write p
        (cut f.resultHash (ascii "result_hash: " ++ task.resultHash.getD [] ++ ascii "\n"))
      let fs := writeOutputsWith f.pass fs p (f.passed task.outputs)
      (f.crash.isNone, f.interrupted fs task.outputs)

/-! ## 2. Without faults -/

theorem writeOutputsWith_none (fs : FS) (p : Path) (outputs : List Bytes) :
    writeOutputsWith (fun _ => ⟨.none, .none⟩) fs p outputs = writeOutputs fs p outputs := by
  induction outputs generalizing fs with
  | nil => rfl
  | cons out outs ih =>
    unfold writeOutputsWith writeOutputs
    rw [ih, writeOutputWith, casStoreBlobFromFileWith_none]
    rcases casStoreBlobFromFile fs out with ⟨_ | h, fs'⟩ <;> rfl

theorem writeTaskRecordWith_none (fs : FS) (task : Task) :
    writeTaskRecordWith .none fs task = writeTaskRecord fs task := by
  unfold writeTaskRecordWith writeTaskRecord
  cases task.taskHash with
  | none => rfl
  | some key =>
    have hopen : (if RecordFaults.none.openMeta then none else fs.openWrite (metaPath key))
        = fs.openWrite (metaPath key) := rfl
    dsimp only
    rw [hopen]
    cases fs.openWrite (metaPath key) with
    | none => rfl
    | some fs' =>
      have hpassed : RecordFaults.none.passed task.outputs = task.outputs := rfl
      dsimp only
      rw [hpassed]
      exact congrArg (Prod.mk true) (writeOutputsWith_none ..)

/-! ## 3. What a store does, whatever fails in it -/

/-- It makes directories of the store, and perhaps writes to its object. -/
theorem storeFileAsWith_cases (f : CopyFaults) (fs : FS) (path : Bytes) {h : Bytes} (hh : IsHash h) :
    ∃ ps, (∀ p ∈ ps, StorePlace fs.cwd p) ∧ ∃ ret, (ret = none ∨ ret = some h) ∧
      (storeFileAsWith f fs path h = (ret, fs.addDirs ps) ∨ ∃ data, storeFileAsWith f fs path h =
        (ret, (fs.addDirs ps).set (objectPath fs.cwd h) (some (.file data)))) := by
  obtain ⟨ps, hps, hmake⟩ := makeObjectPath_snd fs h 2048
  refine ⟨ps, hps, ?_⟩
  rw [storeFileAsWith]
  rcases hm : makeObjectPath fs h 2048 with ⟨_ | objPath, fs₁⟩ <;> rw [hm] at hmake
  · obtain rfl : fs₁ = fs.addDirs ps := hmake
    exact ⟨none, .inl rfl, .inl rfl⟩
  · obtain ⟨rfl, -⟩ := makeObjectPath_some hh hm
    obtain rfl : fs₁ = fs.addDirs ps := hmake
    have hres := resolve_object hh fs.cwd
    dsimp only
    by_cases hex : (fs.addDirs ps).fileExists (objectFile h) = true
    · rw [if_pos hex]
      exact ⟨some h, .inr rfl, .inl rfl⟩
    · rw [if_neg hex, FS.copyFileWith_eq, FS.addDirs_cwd, hres]
      split_ifs with hcopy
      · generalize writeSucceeds f.write _ = ok
        cases ok with
        | false => exact ⟨none, .inl rfl, .inr ⟨_, rfl⟩⟩
        | true => exact ⟨some h, .inr rfl, .inr ⟨_, rfl⟩⟩
      · exact ⟨none, .inl rfl, .inl rfl⟩

/-- A store from a file fails at once, or goes on from the hash of what it reads. -/
theorem casStoreBlobFromFileWith_eq (f : FileFaults) (fs : FS) (path : Bytes) :
    casStoreBlobFromFileWith f fs path = (none, fs) ∨ ∃ data, fs.read path = some data ∧
      casStoreBlobFromFileWith f fs path =
        storeFileAsWith f.copy fs path (blobHash (cut f.stop data)) := by
  rw [casStoreBlobFromFileWith]
  simp only [sha256_freadChunks]
  cases f.openSrc with
  | true => exact .inl rfl
  | false =>
    rw [if_neg Bool.false_ne_true]
    cases fs.read path with
    | none => exact .inl rfl
    | some data => exact .inr ⟨data, rfl, rfl⟩

/-- Only the store is touched, with the directories above it. -/
structure StoreOnly (fs fs' : FS) : Prop where
  cwd : fs'.cwd = fs.cwd
  keep : ∀ p, ¬ objectsDir fs.cwd <+: p → fs.node p ≠ none ∨ ¬ StorePlace fs.cwd p →
    fs'.node p = fs.node p

namespace StoreOnly

theorem refl (fs : FS) : StoreOnly fs fs := ⟨rfl, fun _ _ _ => rfl⟩

theorem addDirs {ps : List Path} (hps : ∀ p ∈ ps, StorePlace fs.cwd p) :
    StoreOnly fs (fs.addDirs ps) where
  cwd := rfl
  keep p _ h := by
    rw [FS.addDirs_node, if_neg]
    rintro ⟨hnone, hm⟩
    exact h.elim (fun hne => hne hnone) fun hno => hno (hps p hm)

theorem setObject (hs : StoreOnly fs fs') (h data : Bytes) :
    StoreOnly fs (fs'.set (objectPath fs.cwd h) (some (.file data))) where
  cwd := hs.cwd
  keep p hp hn := by
    rw [FS.set_node_ne, hs.keep p hp hn]
    rintro rfl
    exact hp (objects_objectPath ..)

end StoreOnly

theorem storeFileAsWith_only (f : CopyFaults) (fs : FS) (path : Bytes) {h : Bytes} (hh : IsHash h) :
    StoreOnly fs (storeFileAsWith f fs path h).2 := by
  obtain ⟨ps, hps, ret, -, he | ⟨data, he⟩⟩ := storeFileAsWith_cases f fs path hh
  · rw [he]
    exact .addDirs hps
  · rw [he]
    exact (StoreOnly.addDirs hps).setObject h data

theorem casStoreBlobFromFileWith_only (f : FileFaults) (fs : FS) (path : Bytes) :
    StoreOnly fs (casStoreBlobFromFileWith f fs path).2 := by
  rcases casStoreBlobFromFileWith_eq f fs path with he | ⟨data, -, he⟩
  · rw [he]
    exact .refl fs
  · rw [he]
    exact storeFileAsWith_only _ fs path (isHash_blobHash _)

/-- What a store returns is the hash of what it read. -/
theorem casStoreBlobFromFileWith_ret {f : FileFaults} {path h : Bytes}
    (hret : (casStoreBlobFromFileWith f fs path).1 = some h) :
    ∃ data, fs.read path = some data ∧ h = blobHash (cut f.stop data) := by
  rcases casStoreBlobFromFileWith_eq f fs path with he | ⟨data, hr, he⟩ <;> rw [he] at hret
  · cases hret
  · obtain ⟨ps, -, ret, hret', hcase⟩ :=
      storeFileAsWith_cases f.copy fs path (isHash_blobHash (cut f.stop data))
    have hfst : (storeFileAsWith f.copy fs path (blobHash (cut f.stop data))).1 = ret := by
      rcases hcase with he | ⟨d, he⟩ <;> rw [he]
    rw [hfst] at hret
    rcases hret' with rfl | rfl
    · cases hret
    · exact ⟨data, hr, (Option.some.inj hret).symm⟩

theorem interruptedStore_only (f : FileFaults) (mkdirs : Option Nat) (fs : FS) (path : Bytes) :
    StoreOnly fs (interruptedStore f mkdirs fs path) := by
  cases mkdirs with
  | none => exact casStoreBlobFromFileWith_only f fs path
  | some n =>
    rw [interruptedStore]
    cases (if f.openSrc then none else fs.read path) with
    | none => exact .refl fs
    | some content =>
      obtain ⟨ps, hsub, hmk, -⟩ := fs.mkdirAll_eq ((objectsParents ++
        [objectsRoot, objectsRoot ++ 47 :: (blobHash (cut f.stop content)).take 2]).take n)
      have hps : ∀ p ∈ ps, StorePlace fs.cwd p := by
        intro p hp
        obtain ⟨s, hs, rfl⟩ := List.mem_map.mp (hsub hp)
        have hs := List.mem_of_mem_take hs
        rw [List.mem_append, List.mem_cons, List.mem_singleton] at hs
        rcases hs with hs | rfl | rfl
        · exact storePlace_parents hs
        · exact .inl (by simp [resolve_objectsRoot])
        · rw [resolve_objectDir (isHash_blobHash _)]
          exact .inr ⟨_, rfl⟩
      dsimp only
      rw [hmk]
      exact .addDirs hps

/-- Nothing is written before the first `mkdir`. -/
theorem interruptedStore_zero (f : FileFaults) (fs : FS) (path : Bytes) :
    interruptedStore f (some 0) fs path = fs := by
  rw [interruptedStore]
  cases (if f.openSrc then none else fs.read path) <;> rfl

theorem RecordFaults.interrupted_only (f : RecordFaults) (fs : FS) (outputs : List Bytes) :
    StoreOnly fs (f.interrupted fs outputs) := by
  unfold RecordFaults.interrupted
  split
  · exact interruptedStore_only ..
  · exact .refl fs

/-! ## 4. The lines -/

/-- The lines of a record for its outputs. -/
def entryLines (entries : List (Bytes × Bytes)) : Bytes :=
  entries.flatMap fun entry => outputLine entry ++ ascii "\n"

/-- The entries of the outputs that are there when the loop comes to them. -/
def passEntries (f : Nat → PassFaults) (fs : FS) (p : Path) : List Bytes → List (Bytes × Bytes)
  | [] => []
  | out :: outs => outputEntries fs [out] ++
      passEntries (fun n => f (n + 1)) (writeOutputWith (f 0) fs p out) p outs

/-- The output is not there; or its store returns the hash of its content, and all of its line gets
through. -/
def PassSafe (f : PassFaults) (fs : FS) (out : Bytes) : Prop :=
  fs.read out = none ∨ ∃ data, fs.read out = some data ∧
    (casStoreBlobFromFileWith f.store fs out).1 = some (blobHash data) ∧
    cut f.print (outputLine (out, blobHash data) ++ ascii "\n") =
      outputLine (out, blobHash data) ++ ascii "\n"

/-- Every pass, in the tree before it. -/
def PassesSafe (f : Nat → PassFaults) (fs : FS) (p : Path) : List Bytes → Prop
  | [] => True
  | out :: outs => PassSafe (f 0) fs out ∧
      PassesSafe (fun n => f (n + 1)) (writeOutputWith (f 0) fs p out) p outs

/-- Two texts that are at most two others are these two, if they are together. -/
theorem append_eq_append_of_le {a b a' b' : Bytes} (ha : a.length ≤ a'.length)
    (hb : b.length ≤ b'.length) : a ++ b = a' ++ b' ↔ a = a' ∧ b = b' := by
  constructor
  · intro h
    have hlen := congrArg List.length h
    rw [List.length_append, List.length_append] at hlen
    exact List.append_inj h (by omega)
  · rintro ⟨rfl, rfl⟩
    rfl

/-- Texts in three parts, of which none is longer than what is due, and nothing for the fourth. -/
theorem text_eq_iff {a b c a' b' c' d' : Bytes} (ha : a.length ≤ a'.length)
    (hb : b.length ≤ b'.length) (hc : c.length ≤ c'.length) :
    a ++ (b ++ c) = a' ++ (b' ++ (c' ++ d')) ↔ a = a' ∧ b = b' ∧ c = c' ∧ d' = [] := by
  have hrest : (b ++ c).length ≤ (b' ++ (c' ++ d')).length := by
    simp only [List.length_append]
    omega
  have hcd : c.length ≤ (c' ++ d').length := by
    rw [List.length_append]
    omega
  have hlast : c ++ [] = c' ++ d' ↔ c = c' ∧ [] = d' :=
    append_eq_append_of_le hc d'.length.zero_le
  rw [List.append_nil] at hlast
  rw [append_eq_append_of_le ha hrest, append_eq_append_of_le hb hcd, hlast, eq_comm (a := d')]

theorem entryLines_append (es es' : List (Bytes × Bytes)) :
    entryLines (es ++ es') = entryLines es ++ entryLines es' := List.flatMap_append ..

/-- Lines of the same output have one length. -/
theorem outputLine_length (out data data' : Bytes) :
    (outputLine (out, blobHash data)).length = (outputLine (out, blobHash data')).length := by
  simp only [outputLine, List.length_append, (isHash_blobHash _).length]

theorem outputLine_inj {out h h' : Bytes}
    (he : outputLine (out, h) ++ ascii "\n" = outputLine (out, h') ++ ascii "\n") : h = h' := by
  unfold outputLine at he
  exact List.append_cancel_left (List.append_cancel_right he)

/-- **One pass** prints at most the line that is due, and that line where it is safe. -/
theorem writeOutputWith_lines (f : PassFaults) {c : Bytes} (out : Bytes)
    (hp : ¬ objectsDir fs.cwd <+: p) (hfile : fs.node p = some (.file c)) :
    (writeOutputWith f fs p out).cwd = fs.cwd ∧ ∃ text,
      (writeOutputWith f fs p out).node p = some (.file (c ++ text)) ∧
      text.length ≤ (entryLines (outputEntries fs [out])).length ∧
      (text = entryLines (outputEntries fs [out]) ↔ PassSafe f fs out) := by
  have honly := casStoreBlobFromFileWith_only f.store fs out
  have hnode := (honly.keep p hp (.inl (by rw [hfile]; simp))).trans hfile
  have hret : ∀ h, (casStoreBlobFromFileWith f.store fs out).1 = some h → ∃ data,
      fs.read out = some data ∧ h = blobHash (cut f.store.stop data) :=
    fun _ => casStoreBlobFromFileWith_ret
  unfold writeOutputWith PassSafe
  rcases hstore : casStoreBlobFromFileWith f.store fs out with ⟨_ | h, fs₁⟩ <;>
    rw [hstore] at honly hnode hret <;> dsimp only at hnode hret ⊢
  · -- no line
    refine ⟨honly.cwd, [], by rw [List.append_nil, hnode], Nat.zero_le _, ?_⟩
    cases hr : fs.read out with
    | none => simp [outputEntries, entryLines, hr]
    | some data => simp [outputEntries, entryLines, outputLine, hr, ascii]
  · obtain ⟨data, hr, rfl⟩ := hret h rfl
    have hdue : entryLines (outputEntries fs [out]) = outputLine (out, blobHash data) ++ ascii "\n" := by
      simp [outputEntries, entryLines, hr]
    have hline : ascii "output " ++ out ++ ascii " " ++ blobHash (cut f.store.stop data) ++ ascii "\n"
        = outputLine (out, blobHash (cut f.store.stop data)) ++ ascii "\n" := rfl
    have hlen : (outputLine (out, blobHash (cut f.store.stop data)) ++ ascii "\n").length
        = (outputLine (out, blobHash data) ++ ascii "\n").length := by
      rw [List.length_append, List.length_append, outputLine_length]
    have hcut := cut_length_le f.print
      (outputLine (out, blobHash (cut f.store.stop data)) ++ ascii "\n")
    rw [hline, FS.write_file hnode, hdue]
    refine ⟨honly.cwd, _, FS.set_node_self .., by omega, ?_⟩
    simp only [hr, reduceCtorEq, false_or, Option.some.injEq, exists_eq_left']
    constructor
    · intro he
      -- all of a line of this length is there, so it is the line, and the hash is that of the content
      have hwhole : cut f.print (outputLine (out, blobHash (cut f.store.stop data)) ++ ascii "\n")
          = outputLine (out, blobHash (cut f.store.stop data)) ++ ascii "\n" := by
        have hl := congrArg List.length he
        rw [← hlen] at hl
        cases hprint : f.print with
        | none => rfl
        | some n =>
          rw [hprint, cut, Option.elim, List.length_take] at hl
          exact List.take_of_length_le (by omega)
      rw [hwhole] at he
      have hhash := outputLine_inj he
      rw [hhash] at hwhole
      exact ⟨hhash, hwhole⟩
    · rintro ⟨hhash, hwhole⟩
      rw [hhash, hwhole]

/-- **The loop** prints at most the lines that are due, and them where every pass is safe. -/
theorem writeOutputsWith_lines (f : Nat → PassFaults) {c : Bytes} (outs : List Bytes)
    (hp : ¬ objectsDir fs.cwd <+: p) (hfile : fs.node p = some (.file c)) :
    (writeOutputsWith f fs p outs).cwd = fs.cwd ∧ ∃ text,
      (writeOutputsWith f fs p outs).node p = some (.file (c ++ text)) ∧
      text.length ≤ (entryLines (passEntries f fs p outs)).length ∧
      (text = entryLines (passEntries f fs p outs) ↔ PassesSafe f fs p outs) := by
  induction outs generalizing f fs c with
  | nil => exact ⟨rfl, [], by rw [List.append_nil]; exact hfile, Nat.le_refl _, by
      simp [passEntries, entryLines, PassesSafe]⟩
  | cons out outs ih =>
    obtain ⟨hcwd, text, hnode, hle, hiff⟩ := writeOutputWith_lines (f 0) out hp hfile
    obtain ⟨hcwd', text', hnode', hle', hiff'⟩ :=
      ih (fun n => f (n + 1)) (by rwa [hcwd]) hnode
    unfold writeOutputsWith passEntries PassesSafe
    refine ⟨hcwd'.trans hcwd, text ++ text', by rw [hnode', List.append_assoc], ?_, ?_⟩
    · rw [entryLines_append, List.length_append, List.length_append]
      exact Nat.add_le_add hle hle'
    · rw [entryLines_append, append_eq_append_of_le hle hle', hiff, hiff']

/-! ## 5. All or nothing -/

/-- The first two lines. -/
def taskHashLine (key : Bytes) : Bytes := ascii "task_hash: " ++ key ++ ascii "\n"

def resultHashLine (task : Task) : Bytes :=
  ascii "result_hash: " ++ task.resultHash.getD [] ++ ascii "\n"

namespace RecordFaults

/-- The file can be opened, and the call comes to it. -/
def Opens (f : RecordFaults) (fs : FS) (key : Bytes) : Prop :=
  f.openMeta = false ∧ fs.Writable (metaPath key)

instance (f : RecordFaults) (fs : FS) (key : Bytes) : Decidable (f.Opens fs key) :=
  inferInstanceAs (Decidable (_ ∧ _))

/-- The tree in which the loop starts. -/
def headed (f : RecordFaults) (fs : FS) (task : Task) (key : Bytes) : FS :=
  fs.set (recordPath fs.cwd key)
    (some (.file (cut f.taskHash (taskHashLine key) ++ cut f.resultHash (resultHashLine task))))

/-- The tree after its last whole pass. -/
def looped (f : RecordFaults) (fs : FS) (task : Task) (key : Bytes) : FS :=
  writeOutputsWith f.pass (f.headed fs task key) (recordPath fs.cwd key) (f.passed task.outputs)

/-- The entries of the declared outputs that exist, each when its turn comes, or when the call
ends before that. -/
def dueEntries (f : RecordFaults) (fs : FS) (task : Task) (key : Bytes) : List (Bytes × Bytes) :=
  if f.Opens fs key then
    passEntries f.pass (f.headed fs task key) (recordPath fs.cwd key) (f.passed task.outputs) ++
      outputEntries (f.looped fs task key) (f.left task.outputs)
  else outputEntries fs task.outputs

/-- The complete record. -/
def dueText (f : RecordFaults) (fs : FS) (task : Task) (key : Bytes) : Bytes :=
  recordText key ⟨task.resultHash.getD [], f.dueEntries fs task key⟩

end RecordFaults

/-- The record is not there, or there as a whole; and it is whole where 0 is returned. -/
structure RecordAtomic (f : RecordFaults) (fs : FS) (task : Task) (key : Bytes) : Prop where
  left : (writeTaskRecordWith f fs task).2.read (metaPath key) = none ∨
    (writeTaskRecordWith f fs task).2.read (metaPath key) = some (f.dueText fs task key)
  returned : (writeTaskRecordWith f fs task).1 = true →
    (writeTaskRecordWith f fs task).2.read (metaPath key) = some (f.dueText fs task key)

/-- When it is so.  Where the file is not opened, it was like that before; where it is, both first
lines get through, each pass is safe, and no output that is there is left at a crash. -/
def RecordSafe (f : RecordFaults) (fs : FS) (task : Task) (key : Bytes) : Prop :=
  if f.Opens fs key then
    cut f.taskHash (taskHashLine key) = taskHashLine key ∧
      cut f.resultHash (resultHashLine task) = resultHashLine task ∧
      PassesSafe f.pass (f.headed fs task key) (recordPath fs.cwd key) (f.passed task.outputs) ∧
      ∀ out ∈ f.left task.outputs, (f.looped fs task key).read out = none
  else fs.read (metaPath key) = none ∨
    fs.read (metaPath key) = some (recordText key ⟨task.resultHash.getD [], outputEntries fs task.outputs⟩)

/-- **The call**, in terms of its parts. -/
theorem writeTaskRecordWith_eq (f : RecordFaults) (fs : FS) {key : Bytes} (hk : IsHash key)
    (hkey : task.taskHash = some key) :
    writeTaskRecordWith f fs task =
      if f.Opens fs key then
        (f.crash.isNone, f.interrupted (f.looped fs task key) task.outputs)
      else (false, fs) := by
  unfold writeTaskRecordWith
  rw [hkey]
  dsimp only
  by_cases hopen : f.Opens fs key
  · have hres := resolve_metaPath hk fs.cwd
    rw [if_pos hopen, hopen.1, if_neg Bool.false_ne_true, FS.openWrite_eq, if_pos hopen.2]
    dsimp only
    rw [FS.set_cwd, hres, FS.write_file (FS.set_node_self ..), FS.set_set,
      FS.write_file (FS.set_node_self ..), FS.set_set]
    rfl
  · rw [if_neg hopen]
    cases hmeta : f.openMeta with
    | true => rfl
    | false =>
      rw [if_neg Bool.false_ne_true, FS.openWrite_eq, if_neg fun hw => hopen ⟨hmeta, hw⟩]

theorem outputEntries_eq_nil {outputs : List Bytes} :
    entryLines (outputEntries fs outputs) = [] ↔ ∀ out ∈ outputs, fs.read out = none := by
  unfold entryLines outputEntries
  rw [List.flatMap_eq_nil_iff]
  constructor
  · intro h out hout
    cases hr : fs.read out with
    | none => rfl
    | some data =>
      have := h (out, blobHash data) (List.mem_filterMap.mpr ⟨out, hout, by rw [hr]; rfl⟩)
      simp [ascii] at this
  · intro h entry he
    obtain ⟨out, hout, he⟩ := List.mem_filterMap.mp he
    rw [h out hout] at he
    cases he

/-- **What the file holds** after a call that opened it: at most what is due, and that where the
call is safe. -/
theorem writeTaskRecordWith_lines (f : RecordFaults) (fs : FS) {key : Bytes} (hk : IsHash key)
    (hkey : task.taskHash = some key) (hopen : f.Opens fs key) :
    ∃ text, (writeTaskRecordWith f fs task).2.read (metaPath key) = some text ∧
      (text = f.dueText fs task key ↔ RecordSafe f fs task key) := by
  have hnot : ¬ objectsDir (f.headed fs task key).cwd <+: recordPath fs.cwd key :=
    not_objects_recordPath fs.cwd key
  have hhead : (f.headed fs task key).node (recordPath fs.cwd key) = some (.file
      (cut f.taskHash (taskHashLine key) ++ cut f.resultHash (resultHashLine task))) :=
    FS.set_node_self ..
  obtain ⟨hcwd, text, hnode, hle, hiff⟩ :=
    writeOutputsWith_lines f.pass (f.passed task.outputs) hnot hhead
  have honly := f.interrupted_only (f.looped fs task key) task.outputs
  have hcwd : (f.looped fs task key).cwd = fs.cwd := hcwd
  have hfile := honly.keep (recordPath fs.cwd key) (by rw [hcwd]; exact hnot) (.inl (by
    rw [RecordFaults.looped, hnode]
    simp))
  rw [RecordFaults.looped, hnode, ← RecordFaults.looped] at hfile
  rw [List.append_assoc] at hfile
  refine ⟨cut f.taskHash (taskHashLine key) ++ (cut f.resultHash (resultHashLine task) ++ text),
    ?_, ?_⟩
  · rw [writeTaskRecordWith_eq f fs hk hkey, if_pos hopen, read_metaPath hk, honly.cwd, hcwd, hfile]
  · have hdue : f.dueText fs task key = taskHashLine key ++ (resultHashLine task ++
        (entryLines (passEntries f.pass (f.headed fs task key) (recordPath fs.cwd key)
            (f.passed task.outputs)) ++
          entryLines (outputEntries (f.looped fs task key) (f.left task.outputs)))) := by
      rw [RecordFaults.dueText, RecordFaults.dueEntries, if_pos hopen, recordText,
        ← entryLines_append, taskHashLine, resultHashLine, entryLines]
      simp only [List.append_assoc]
    rw [hdue, text_eq_iff (cut_length_le ..) (cut_length_le ..) hle, hiff, outputEntries_eq_nil,
      RecordSafe, if_pos hopen]

/-- Where the file is opened, it has to be whole. -/
theorem record_opened_iff (f : RecordFaults) (fs : FS) {key : Bytes} (hk : IsHash key)
    (hkey : task.taskHash = some key) (hopen : f.Opens fs key) :
    RecordAtomic f fs task key ↔ RecordSafe f fs task key := by
  obtain ⟨text, hread, hiff⟩ := writeTaskRecordWith_lines f fs hk hkey hopen
  rw [← hiff]
  constructor
  · rintro ⟨h | h, -⟩
    · rw [hread] at h
      cases h
    · exact Option.some.inj (hread.symm.trans h)
  · rintro rfl
    exact ⟨.inr hread, fun _ => hread⟩

/-- **Which calls keep a record atomic**: for every task with a hash, every tree, and whatever
fails. -/
theorem record_atomic_iff (f : RecordFaults) (fs : FS) (task : Task) (key : Bytes) (hk : IsHash key)
    (hkey : task.taskHash = some key) : RecordAtomic f fs task key ↔ RecordSafe f fs task key := by
  by_cases hopen : f.Opens fs key
  · exact record_opened_iff f fs hk hkey hopen
  · -- nothing is written
    have hcall := writeTaskRecordWith_eq f fs hk hkey
    have hdue : f.dueText fs task key =
        recordText key ⟨task.resultHash.getD [], outputEntries fs task.outputs⟩ := by
      rw [RecordFaults.dueText, RecordFaults.dueEntries, if_neg hopen]
    rw [if_neg hopen] at hcall
    rw [RecordSafe, if_neg hopen, ← hdue]
    constructor
    · rintro ⟨h, -⟩
      rwa [hcall] at h
    · intro h
      exact ⟨by rwa [hcall], fun hret => by simp [hcall] at hret⟩

/-- A task with a hash and one output, that is there. -/
def recordedTask : Task :=
  { taskNew (ascii "t") with
    outputs := [ascii "i"]
    taskHash := some (blobHash [])
    resultHash := some (blobHash []) }

theorem record_atomic_none :
    RecordAtomic .none (makeTree []) recordedTask (blobHash []) ↔
      RecordSafe .none (makeTree []) recordedTask (blobHash []) :=
  record_atomic_iff _ _ _ _ (isHash_blobHash []) rfl

/-- The call crashes between its `fopen` and its first `fflush`. -/
def crashAtOnce : RecordFaults :=
  { RecordFaults.none with taskHash := some 0, resultHash := some 0, crash := some ⟨0, some 0⟩ }

/-- The copy of an output to the store cannot be opened. -/
def storeFails : RecordFaults :=
  { RecordFaults.none with pass := fun _ => ⟨⟨false, none, ⟨false, true, none, none⟩⟩, none⟩ }

/-- It leaves the file as `fopen` made it. -/
theorem writeTaskRecordWith_crashAtOnce (hopen : crashAtOnce.Opens (makeTree []) (blobHash [])) :
    (writeTaskRecordWith crashAtOnce (makeTree []) recordedTask).2 =
      (makeTree []).set (recordPath (makeTree []).cwd (blobHash [])) (some (.file [])) := by
  rw [writeTaskRecordWith_eq _ _ (isHash_blobHash []) rfl, if_pos hopen]
  exact interruptedStore_zero .none (crashAtOnce.headed (makeTree []) recordedTask (blobHash []))
    (ascii "i")

/-- The pass of the output is not safe: its store returns no hash. -/
theorem not_passSafe_storeFails : ¬ PassSafe (storeFails.pass 0)
    (storeFails.headed (makeTree []) recordedTask (blobHash [])) (ascii "i") := by
  have hready : StoreReady (storeFails.headed (makeTree []) recordedTask (blobHash [])) :=
    ((makeTree_store []).set_record (by rw [makeTree_record [] (blobHash [])]; simp) _).ready
  have hread : (storeFails.headed (makeTree []) recordedTask (blobHash [])).read (ascii "i")
      = some [] := by
    rw [RecordFaults.headed, read_set_record, makeTree_read]
    unfold Inside
    rw [makeTree_cwd]
    decide
  have hobj : (storeFails.headed (makeTree []) recordedTask (blobHash [])).node
      (objectPath (storeFails.headed (makeTree []) recordedTask (blobHash [])).cwd (blobHash []))
      = none := by
    rw [RecordFaults.headed, FS.set_cwd, FS.set_node_ne _ _ (recordPath_ne_objectPath _ _ _).symm,
      makeTree_object]
  have hnone := casStoreBlobFromFileWith_unopened hready (f := (storeFails.pass 0).store) rfl hread
    hobj (.inr rfl)
  rintro (h | ⟨data, -, h, -⟩)
  · rw [hread] at h
    cases h
  · rw [hnone] at h
    cases h

/-- **A crash leaves an empty record**, which the next call takes for a hit; and a store that fails
leaves a record without its line, and 0 is returned. -/
theorem record_torn :
    (¬ RecordAtomic crashAtOnce (makeTree []) recordedTask (blobHash []) ∧
      ∃ fs', (writeTaskRecordWith crashAtOnce (makeTree []) recordedTask).2 = fs' ∧
        tryLoadTaskRecord fs' recordedTask =
          .ok (1, { recordedTask with resultHash := some [], status := .skipped }, fs')) ∧
    ¬ RecordAtomic storeFails (makeTree []) recordedTask (blobHash []) ∧
      (writeTaskRecordWith storeFails (makeTree []) recordedTask).1 = true := by
  have hk := isHash_blobHash []
  have hopen : ∀ f : RecordFaults, f.openMeta = false → f.Opens (makeTree []) (blobHash []) :=
    fun f hf => ⟨hf, makeTree_writable_record [] hk⟩
  refine ⟨⟨?_, ?_⟩, ?_, ?_⟩
  · rw [record_opened_iff _ _ hk rfl (hopen _ rfl), RecordSafe, if_pos (hopen _ rfl)]
    rintro ⟨h, -⟩
    simp [crashAtOnce, cut, taskHashLine, ascii] at h
  · refine ⟨_, writeTaskRecordWith_crashAtOnce (hopen _ rfl), tryLoadTaskRecord_empty rfl ?_⟩
    rw [read_metaPath hk, FS.set_cwd, FS.set_node_self]
  · rw [record_opened_iff _ _ hk rfl (hopen _ rfl), RecordSafe, if_pos (hopen _ rfl)]
    rintro ⟨-, -, ⟨hpass, -⟩, -⟩
    exact not_passSafe_storeFails hpass
  · rw [writeTaskRecordWith_eq _ _ hk rfl, if_pos (hopen _ rfl)]
    rfl

/-! ## 6. Outputs outside `.reprovm` -/

/-- A place outside `.reprovm` that is not the working directory. -/
theorem not_storePlace {cwd q : Path} (hq : ¬ Inside cwd q) (hne : q ≠ cwd) :
    ¬ StorePlace cwd q := by
  rintro (hm | ⟨_, rfl⟩)
  · simp only [List.mem_cons, List.not_mem_nil, or_false] at hm
    rcases hm with rfl | rfl | rfl | rfl
    · exact hne rfl
    · exact hq (List.prefix_refl _)
    · exact hq (by rw [Inside, casDir]; exact List.prefix_append ..)
    · exact hq (inside_objects (List.prefix_refl _))
  · exact hq (inside_objects (List.prefix_append ..))

/-- Nothing outside is touched. -/
structure SameOutside (fs fs' : FS) : Prop where
  cwd : fs'.cwd = fs.cwd
  node : ∀ q, ¬ Inside fs.cwd q → fs'.node q = fs.node q

namespace SameOutside

theorem trans {fs₁ fs₂ fs₃ : FS} (h : SameOutside fs₁ fs₂) (h' : SameOutside fs₂ fs₃) :
    SameOutside fs₁ fs₃ where
  cwd := h'.cwd.trans h.cwd
  node q hq := (h'.node q (by rwa [h.cwd])).trans (h.node q hq)

theorem set (fs : FS) (hp : Inside fs.cwd p) (n : Option Node) : SameOutside fs (fs.set p n) where
  cwd := rfl
  node _ hq := FS.set_node_ne _ _ fun h => hq (h ▸ hp)

theorem write (fs : FS) (hp : Inside fs.cwd p) (text : Bytes) : SameOutside fs (fs.write p text) := by
  unfold FS.write
  split
  · exact set fs hp _
  · exact ⟨rfl, fun _ _ => rfl⟩

theorem outputEntries_eq (h : SameOutside fs fs') {outputs : List Bytes}
    (ho : OutsideAll fs.cwd outputs) : outputEntries fs' outputs = outputEntries fs outputs := by
  unfold outputEntries
  refine List.filterMap_congr fun out hout => ?_
  rw [FS.read_congr h.cwd (h.node _ (ho out hout))]

end SameOutside

theorem StoreOnly.sameOutside (h : StoreOnly fs fs') (hcwd : fs.node fs.cwd ≠ none) :
    SameOutside fs fs' where
  cwd := h.cwd
  node q hq := by
    refine h.keep q (fun hobj => hq (inside_objects hobj)) ?_
    by_cases hne : q = fs.cwd
    · exact .inl (hne ▸ hcwd)
    · exact .inr (not_storePlace hq hne)

theorem not_inside_cwd (cwd : Path) : ¬ Inside cwd cwd := by
  intro h
  have := h.length_le
  simp [reprovmDir] at this

theorem writeOutputWith_outside (f : PassFaults) (out : Bytes) (hp : Inside fs.cwd p)
    (hcwd : fs.node fs.cwd ≠ none) : SameOutside fs (writeOutputWith f fs p out) := by
  have hstore := (casStoreBlobFromFileWith_only f.store fs out).sameOutside hcwd
  unfold writeOutputWith
  rcases hs : casStoreBlobFromFileWith f.store fs out with ⟨_ | h, fs₁⟩ <;> rw [hs] at hstore
  · exact hstore
  · exact hstore.trans (.write fs₁ (by rwa [hstore.cwd]) _)

/-- The entries of the loop are those of the tree before it. -/
theorem passEntries_outside (f : Nat → PassFaults) (hp : Inside fs.cwd p)
    (hcwd : fs.node fs.cwd ≠ none) {outs : List Bytes} (ho : OutsideAll fs.cwd outs) :
    SameOutside fs (writeOutputsWith f fs p outs) ∧
      passEntries f fs p outs = outputEntries fs outs := by
  induction outs generalizing f fs with
  | nil => exact ⟨⟨rfl, fun _ _ => rfl⟩, rfl⟩
  | cons out outs ih =>
    have ho' : OutsideAll fs.cwd outs := fun o h => ho o (List.mem_cons_of_mem _ h)
    have hone := writeOutputWith_outside (f 0) out hp hcwd
    have hnode := hone.node fs.cwd (not_inside_cwd fs.cwd)
    obtain ⟨hrest, he⟩ := ih (fun n => f (n + 1)) (by rwa [hone.cwd]) (by rwa [hone.cwd, hnode])
      (by rwa [hone.cwd])
    unfold writeOutputsWith passEntries
    refine ⟨hone.trans hrest, ?_⟩
    rw [he, hone.outputEntries_eq ho', outputEntries, outputEntries, outputEntries,
      ← List.filterMap_append, List.singleton_append]

/-- **What is due** is then what `write_task_record` finds when it starts. -/
theorem dueEntries_outside (f : RecordFaults) {key : Bytes}
    (hcwd : fs.node fs.cwd ≠ none) (ho : OutsideAll fs.cwd task.outputs) :
    f.dueEntries fs task key = outputEntries fs task.outputs := by
  have hsplit : f.passed task.outputs ++ f.left task.outputs = task.outputs := by
    unfold RecordFaults.passed RecordFaults.left
    cases f.crash with
    | none => exact List.append_nil _
    | some c => exact List.take_append_drop ..
  have hpassed : OutsideAll fs.cwd (f.passed task.outputs) := fun out h =>
    ho out (hsplit ▸ List.mem_append_left _ h)
  have hleft : OutsideAll fs.cwd (f.left task.outputs) := fun out h =>
    ho out (hsplit ▸ List.mem_append_right _ h)
  have hhead : SameOutside fs (f.headed fs task key) := .set fs (inside_recordPath fs.cwd key) _
  have hin : Inside (f.headed fs task key).cwd (recordPath fs.cwd key) := inside_recordPath ..
  have hcwd' : (f.headed fs task key).node (f.headed fs task key).cwd ≠ none := by
    rwa [hhead.cwd, hhead.node fs.cwd (not_inside_cwd fs.cwd)]
  obtain ⟨hloop, he⟩ := passEntries_outside f.pass hin hcwd' hpassed
  unfold RecordFaults.dueEntries
  split_ifs with hopen
  · rw [he, hhead.outputEntries_eq hpassed, RecordFaults.looped,
      (hhead.trans hloop).outputEntries_eq hleft, outputEntries, outputEntries,
      ← List.filterMap_append, hsplit, outputEntries]
  · rfl

end ReproVM
