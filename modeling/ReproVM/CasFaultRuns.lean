/-
# Runs of the store under I/O faults

A run is a sequence of stores, each with what fails in it, and of edits outside `.reprovm`.  What is
asked of one call is `FaultyOp.Sound`, and `FaultyOp.Safe` is when the code delivers it: the bytes
that are hashed and the bytes that reach the object are the source, or nothing is written at all.

One call that is not safe leaves an object that is not what its hash says, and later calls trust
it: the condition on one call in a store in order is exact, and runs of safe calls keep the store
in order.
-/
import ReproVM.CasFaults

namespace ReproVM

open Bytes (ascii)
open Lib (Run)

variable {S : Set Bytes} {fs fs' : FS}

/-! ## 1. Calls -/

/-- A call with what fails in it and what it returns, or an edit outside `.reprovm`. -/
inductive FaultyOp
  | storeMemory (f : MemoryFaults) (data : Bytes) (ret : Option Bytes)
  | storeFile (f : FileFaults) (path : Bytes) (ret : Option Bytes)
  | edit

inductive FaultyStep : FS → FaultyOp → FS → Prop
  | storeMemory (fs : FS) (f : MemoryFaults) (data : Bytes) :
      FaultyStep fs (.storeMemory f data (casStoreBlobFromMemoryWith f fs data).1)
        (casStoreBlobFromMemoryWith f fs data).2
  | storeFile (fs : FS) (f : FileFaults) (path : Bytes) :
      FaultyStep fs (.storeFile f path (casStoreBlobFromFileWith f fs path).1)
        (casStoreBlobFromFileWith f fs path).2
  | edit {fs fs' : FS} (h : EditOutside fs fs') : FaultyStep fs .edit fs'

namespace FaultyOp

/-- The hash a call returns. -/
def ret : FaultyOp → Option Bytes
  | storeMemory _ _ ret => ret
  | storeFile _ _ ret => ret
  | edit => none

/-- The content of the source of a call.  A directory has none. -/
def source (fs : FS) : FaultyOp → Option Bytes
  | storeMemory _ data _ => some data
  | storeFile _ path _ =>
    match fs.lookup path with
    | some (.file data) => some data
    | _ => none
  | edit => none

/-- What is asked of a call. -/
structure Sound (fs : FS) (op : FaultyOp) (fs' : FS) : Prop where
  objects : ∀ h data, fs'.node (objectPath fs'.cwd h) = some (.file data) → blobHash data = h
  failed : op.ret = none → ∀ h data,
    fs'.node (objectPath fs.cwd h) = some (.file data) ↔
      fs.node (objectPath fs.cwd h) = some (.file data)
  stored : ∀ h, op.ret = some h → ∃ data, op.source fs = some data ∧ h = blobHash data ∧
    fs'.node (objectPath fs.cwd h) = some (.file data)

/-- The object of `data` is there, or it is not and what the call writes is all of `data`. -/
def Fits (fs : FS) (data : Bytes) (whole : Prop) : Prop :=
  fs.node (objectPath fs.cwd (blobHash data)) = some (.file data) ∨
    fs.node (objectPath fs.cwd (blobHash data)) = none ∧ whole

/-- When the code delivers it.  From memory: no bytes are lost that only `fclose` reports.  From a
file: it cannot be opened; or the copy cannot start; or it is a regular file, what the hashing loop
reads has its hash, and neither the copy's reads nor its writes stop early. -/
def Safe (fs : FS) : FaultyOp → Prop
  | storeMemory f data _ => Fits fs data
      (f.openTmp ∨ f.rename ∨ ∀ w, f.write = some w → w.seen ∨ data.length ≤ w.room)
  | storeFile f path _ => f.openSrc ∨ fs.read path = none ∨
      (∃ data, fs.read path = some data ∧
        fs.node (objectPath fs.cwd (blobHash (cut f.stop data))) = none ∧
        (f.copy.openSrc ∨ f.copy.openDst)) ∨
      ∃ data, fs.lookup path = some (.file data) ∧ blobHash (cut f.stop data) = blobHash data ∧
        Fits fs data (cut f.copy.stop data = data ∧
          ∀ w, f.copy.write = some w → data.length ≤ w.room)
  | edit => True

end FaultyOp

/-! ## 2. One call -/

/-- Directories of the store are no objects. -/
theorem addDirs_object {ps : List Path} (hps : ∀ p ∈ ps, StorePlace fs.cwd p) (h : Bytes) :
    (fs.addDirs ps).node (objectPath fs.cwd h) = fs.node (objectPath fs.cwd h) := by
  refine FS.addDirs_node_of_notMem fun hmem => ?_
  have := hps _ hmem
  rw [objectPath_eq] at this
  exact absurd this.length_le (by simp)

/-- Nothing is written where an object is. -/
theorem storedMemory_present {h : Bytes} (hn : fs.node (objectPath fs.cwd h) ≠ none)
    (f : MemoryFaults) (data : Bytes) :
    storedMemory f fs data h = (some h, fs.addObject h data) := by
  rw [storedMemory, if_pos hn, FS.addObject, if_neg hn]

theorem storedFile_present {h : Bytes} (hn : fs.node (objectPath fs.cwd h) ≠ none)
    (f : CopyFaults) (data : Bytes) :
    storedFile f fs data h = (some h, fs.addObject h data) := by
  rw [storedFile, if_pos hn, FS.addObject, if_neg hn]

/-- **A safe store from memory.** -/
theorem storedMemory_safe {f : MemoryFaults} {data : Bytes} {ret : Option Bytes}
    (hsafe : (FaultyOp.storeMemory f data ret).Safe fs) :
    storedMemory f fs data (blobHash data) =
        (some (blobHash data), fs.addObject (blobHash data) data) ∨
      storedMemory f fs data (blobHash data) =
        (none, fs.addDirs (storeDirs fs.cwd (blobHash data))) := by
  rcases hsafe with hobj | ⟨hnone, hwhole⟩
  · exact .inl (storedMemory_present (by simp [hobj]) f data)
  · rw [storedMemory, if_neg (not_not_intro hnone)]
    by_cases hfail : f.openTmp ∨ f.rename ∨ writeSucceeds f.write data = false
    · exact .inr (if_pos hfail)
    · rw [if_neg hfail]
      simp only [not_or, Bool.not_eq_true, Bool.not_eq_false] at hfail
      obtain ⟨hopen, hren, hok⟩ := hfail
      have hroom : ∀ w, f.write = some w → data.length ≤ w.room := by
        intro w hw
        rcases hwhole with h | h | h
        · simp [hopen] at h
        · simp [hren] at h
        · rcases h w hw with hs | hs
          · rcases writeSucceeds_eq_true.mp hok w hw with hs' | hs'
            · simp [hs'] at hs
            · exact hs'
          · exact hs
      rw [(written_eq_iff ..).mpr hroom, FS.addObject, if_pos hnone]
      exact .inl rfl

/-- **A safe copy** of the file `data`. -/
theorem storedFile_safe {f : CopyFaults} {data : Bytes}
    (hfit : FaultyOp.Fits fs data (cut f.stop data = data ∧
      ∀ w, f.write = some w → data.length ≤ w.room)) :
    storedFile f fs data (blobHash data) =
        (some (blobHash data), fs.addObject (blobHash data) data) ∨
      storedFile f fs data (blobHash data) =
        (none, fs.addDirs (storeDirs fs.cwd (blobHash data))) := by
  rcases hfit with hobj | ⟨hnone, hcut, hroom⟩
  · exact .inl (storedFile_present (by simp [hobj]) f data)
  · rw [storedFile, if_neg (not_not_intro hnone)]
    by_cases hfail : f.openSrc ∨ f.openDst
    · exact .inr (if_pos hfail)
    · rw [if_neg hfail, hcut, writeSucceeds_of_room hroom, (written_eq_iff ..).mpr hroom,
        FS.addObject, if_pos hnone]
      exact .inl rfl

/-- **A safe call** stores its source under its hash, where no other object is, or stores nothing
and returns no hash. -/
theorem FaultyStep.cases {op : FaultyOp} (hs : FaultyStep fs op fs') (hi : StoreInv S fs)
    (hsafe : op.Safe fs) :
    (∃ data, op.source fs = some data ∧ op.ret = some (blobHash data) ∧
        (∀ d, fs.node (objectPath fs.cwd (blobHash data)) = some (.file d) → d = data) ∧
        fs' = fs.addObject (blobHash data) data) ∨
      op.ret = none ∧ ((∃ ps, (∀ p ∈ ps, StorePlace fs.cwd p) ∧ fs' = fs.addDirs ps) ∨
        EditOutside fs fs') := by
  have hfits : ∀ {data whole d}, FaultyOp.Fits fs data whole →
      fs.node (objectPath fs.cwd (blobHash data)) = some (.file d) → d = data := by
    rintro data whole d (hobj | ⟨hnone, -⟩) hd
    · rw [hobj] at hd
      cases hd
      rfl
    · rw [hnone] at hd
      cases hd
  cases hs with
  | storeMemory f data =>
    rw [casStoreBlobFromMemoryWith_ready hi.ready f (hi.noTmp (isHash_blobHash data))] at hsafe ⊢
    rcases storedMemory_safe hsafe with he | he
    · rw [he]
      exact .inl ⟨data, rfl, rfl, fun _ => hfits hsafe, rfl⟩
    · rw [he]
      exact .inr ⟨rfl, .inl ⟨_, storePlace_storeDirs fs.cwd _, rfl⟩⟩
  | storeFile f path =>
    rw [casStoreBlobFromFileWith_ready hi.ready f path] at hsafe ⊢
    have hnothing : (∃ ps, (∀ p ∈ ps, StorePlace fs.cwd p) ∧ fs = fs.addDirs ps) ∨
        EditOutside fs fs := .inl ⟨[], by simp, fs.addDirs_nil.symm⟩
    rcases hsafe with hopen | hr | ⟨data, hr, hnone, hfail⟩ | ⟨data, hl, hhash, hfit⟩
    · rw [if_pos hopen]
      exact .inr ⟨rfl, hnothing⟩
    · rw [hr, ite_self]
      exact .inr ⟨rfl, hnothing⟩
    · cases f.openSrc with
      | true => exact .inr ⟨rfl, hnothing⟩
      | false =>
        rw [if_neg Bool.false_ne_true, hr]
        dsimp only
        rw [storedFile, if_neg (not_not_intro hnone), if_pos hfail]
        exact .inr ⟨rfl, .inl ⟨_, storePlace_storeDirs fs.cwd _, rfl⟩⟩
    · have hr : fs.read path = some data := by rw [FS.read, hl]
      cases f.openSrc with
      | true => exact .inr ⟨rfl, hnothing⟩
      | false =>
        rw [if_neg Bool.false_ne_true, hr]
        dsimp only
        rw [hhash]
        rcases storedFile_safe hfit with he | he
        · rw [he]
          exact .inl ⟨data, by rw [FaultyOp.source, hl], rfl, fun _ => hfits hfit, rfl⟩
        · rw [he]
          exact .inr ⟨rfl, .inl ⟨_, storePlace_storeDirs fs.cwd _, rfl⟩⟩
  | edit h => exact .inr ⟨rfl, .inr h⟩

/-- It keeps the store in order. -/
theorem FaultyStep.inv {op : FaultyOp} (hs : FaultyStep fs op fs') (hi : StoreInv Set.univ fs)
    (hsafe : op.Safe fs) : StoreInv Set.univ fs' := by
  rcases hs.cases hi hsafe with ⟨data, -, -, -, rfl⟩ | ⟨-, ⟨ps, hps, rfl⟩ | he⟩
  · exact (hi.addObject data).mono (Set.subset_univ _)
  · exact hi.addDirs hps
  · exact hi.edit he

/-- And it does what is asked of it. -/
theorem FaultyStep.sound {op : FaultyOp} (hs : FaultyStep fs op fs') (hi : StoreInv Set.univ fs)
    (hsafe : op.Safe fs) : op.Sound fs fs' where
  objects h data hobj := by
    obtain ⟨d, -, hd, hh, -⟩ := (hs.inv hi hsafe).object hobj
    cases hd
    exact hh
  failed hret h data := by
    rcases hs.cases hi hsafe with ⟨d, -, hr, -, -⟩ | ⟨-, ⟨ps, hps, rfl⟩ | he⟩
    · rw [hr] at hret
      cases hret
    · rw [addDirs_object hps]
    · have hnode : fs'.node (objectPath fs.cwd h) = fs.node (objectPath fs.cwd h) := by
        simpa [objectPath_eq, objectsDir, casDir] using
          he.inside [ascii "cas", ascii "objects", h.take 2, h.drop 2]
      rw [hnode]
  stored h hret := by
    rcases hs.cases hi hsafe with ⟨data, hsrc, hr, hsame, rfl⟩ | ⟨hr, -⟩
    · obtain rfl : blobHash data = h := Option.some.inj (hr.symm.trans hret)
      refine ⟨data, hsrc, rfl, ?_⟩
      cases hn : fs.node (objectPath fs.cwd (blobHash data)) with
      | none => exact FS.addObject_node_object hn data
      | some n =>
        obtain ⟨d, -, rfl, -, -⟩ := hi.object hn
        rw [FS.addObject_node_of_some hn, hsame d hn]
    · rw [hr] at hret
      cases hret

/-! ## 3. A call that is not safe -/

/-- **A store from memory that does what is asked of it is safe.** -/
theorem safe_of_sound_memory (hi : StoreInv S fs) {f : MemoryFaults} {data : Bytes}
    (hs : (FaultyOp.storeMemory f data (casStoreBlobFromMemoryWith f fs data).1).Sound fs
      (casStoreBlobFromMemoryWith f fs data).2) (ret : Option Bytes) :
    (FaultyOp.storeMemory f data ret).Safe fs := by
  rw [casStoreBlobFromMemoryWith_ready hi.ready f (hi.noTmp (isHash_blobHash data))] at hs
  cases hn : fs.node (objectPath fs.cwd (blobHash data)) with
  | some n =>
    rw [storedMemory_present (by simp [hn])] at hs
    obtain ⟨d, hd, -, hobj⟩ := hs.stored _ rfl
    obtain rfl : data = d := Option.some.inj hd
    rw [FS.addObject_node_of_some hn] at hobj
    exact .inl (hn.trans hobj)
  | none =>
    refine .inr ⟨hn, ?_⟩
    rw [storedMemory, if_neg (not_not_intro hn)] at hs
    by_cases hfail : f.openTmp ∨ f.rename ∨ writeSucceeds f.write data = false
    · rcases hfail with h | h | h
      · exact .inl h
      · exact .inr (.inl h)
      · refine .inr (.inr fun w hw => ?_)
        simp only [writeSucceeds, hw, Option.elim, Bool.or_eq_false_iff] at h
        exact .inl (by simpa using h.1)
    · rw [if_neg hfail] at hs
      obtain ⟨d, hd, -, hobj⟩ := hs.stored _ rfl
      obtain rfl : data = d := Option.some.inj hd
      rw [FS.set_node_self] at hobj
      have hwhole : written f.write data = data := by simpa using hobj
      exact .inr (.inr fun w hw => .inr ((written_eq_iff ..).mp hwhole w hw))

/-- **So is a store from a file.** -/
theorem safe_of_sound_file (hi : StoreInv S fs) {f : FileFaults} {path : Bytes}
    (hs : (FaultyOp.storeFile f path (casStoreBlobFromFileWith f fs path).1).Sound fs
      (casStoreBlobFromFileWith f fs path).2) (ret : Option Bytes) :
    (FaultyOp.storeFile f path ret).Safe fs := by
  rw [casStoreBlobFromFileWith_ready hi.ready f path] at hs
  cases hopen : f.openSrc with
  | true => exact .inl hopen
  | false =>
    cases hr : fs.read path with
    | none => exact .inr (.inl hr)
    | some data =>
      rw [hopen, if_neg Bool.false_ne_true, hr] at hs
      dsimp only at hs
      -- what a call returns a hash for is a regular file
      have hsource : ∀ {r data'}, (FaultyOp.storeFile f path r).source fs = some data' →
          fs.lookup path = some (.file data) ∧ data' = data := by
        intro r data' hsrc
        rw [FS.read] at hr
        cases hl : fs.lookup path with
        | none => simp [FaultyOp.source, hl] at hsrc
        | some n =>
          rw [hl] at hr
          cases n with
          | dir => simp [FaultyOp.source, hl] at hsrc
          | file d =>
            obtain rfl : d = data := Option.some.inj hr
            exact ⟨rfl, by simpa [FaultyOp.source, hl] using hsrc.symm⟩
      cases hn : fs.node (objectPath fs.cwd (blobHash (cut f.stop data))) with
      | some n =>
        rw [storedFile_present (by simp [hn])] at hs
        obtain ⟨d, hd, hhash, hobj⟩ := hs.stored _ rfl
        obtain ⟨hl, rfl⟩ := hsource hd
        rw [FS.addObject_node_of_some hn, ← hn, hhash] at hobj
        exact .inr (.inr (.inr ⟨d, hl, hhash, .inl hobj⟩))
      | none =>
        rw [storedFile, if_neg (not_not_intro hn)] at hs
        by_cases hfail : f.copy.openSrc ∨ f.copy.openDst
        · exact .inr (.inr (.inl ⟨data, hr, hn, hfail⟩))
        · rw [if_neg hfail] at hs
          cases hok : writeSucceeds f.copy.write (cut f.copy.stop data) with
          | false =>
            -- the part that was written stays
            rw [hok, if_neg Bool.false_ne_true] at hs
            have := (hs.failed rfl _ _).mp (FS.set_node_self ..)
            rw [hn] at this
            cases this
          | true =>
            rw [hok, if_pos rfl] at hs
            obtain ⟨d, hd, hhash, hobj⟩ := hs.stored _ rfl
            obtain ⟨hl, rfl⟩ := hsource hd
            rw [FS.set_node_self] at hobj
            obtain ⟨hcut, hwhole⟩ := written_cut_eq (by simpa using hobj)
            exact .inr (.inr (.inr ⟨d, hl, hhash, .inr ⟨hhash ▸ hn, hcut,
              (written_eq_iff ..).mp hwhole⟩⟩))

/-- **The condition is exact** for a call on a store in order. -/
theorem FaultyStep.sound_iff {op : FaultyOp} (hs : FaultyStep fs op fs')
    (hi : StoreInv Set.univ fs) : op.Sound fs fs' ↔ op.Safe fs := by
  constructor
  · intro h
    cases hs with
    | storeMemory f data => exact safe_of_sound_memory hi h _
    | storeFile f path => exact safe_of_sound_file hi h _
    | edit => trivial
  · exact hs.sound hi

/-! ## 4. Runs -/

/-- A call, and that it is safe. -/
def SafeStep (fs : FS) (op : FaultyOp) (fs' : FS) : Prop := FaultyStep fs op fs' ∧ op.Safe fs

theorem safe_run_inv {fs₀ : FS} (h : NoStore fs₀) {ops : List FaultyOp}
    (hrun : Run SafeStep (casInit fs₀ (ascii ".")).2 ops fs) : StoreInv Set.univ fs :=
  hrun.preserve (fun _ _ _ hi hs => hs.1.inv hi hs.2) (h.runInv.store.mono (Set.subset_univ _))

/-- **Stores under faults.**  In a run of safe calls from the empty store every call does what is
asked of it: every object has the hash of its place; a call that fails leaves the objects as they
were; a call that returns a hash has stored its source.  The next call does so just if it is safe
too. -/
theorem fault_runs {fs₀ : FS} (h : NoStore fs₀) {ops : List FaultyOp}
    (hrun : Run SafeStep (casInit fs₀ (ascii ".")).2 ops fs) :
    (∀ ops₁ op ops₂, ops = ops₁ ++ op :: ops₂ → ∃ s s',
        Run SafeStep (casInit fs₀ (ascii ".")).2 ops₁ s ∧ SafeStep s op s' ∧
          Run SafeStep s' ops₂ fs ∧ op.Sound s s') ∧
      (∀ hash data, fs.node (objectPath fs.cwd hash) = some (.file data) → blobHash data = hash) ∧
      ∀ op fs', FaultyStep fs op fs' → (op.Sound fs fs' ↔ op.Safe fs) := by
  have hi := safe_run_inv h hrun
  refine ⟨fun ops₁ op ops₂ hops => ?_, fun hash data hobj => ?_, fun op fs' hs => hs.sound_iff hi⟩
  · obtain ⟨s, s', h1, h2, h3⟩ := (hops ▸ hrun).split_step
    exact ⟨s, s', h1, h2, h3, h2.1.sound (safe_run_inv h h1) h2.2⟩
  · obtain ⟨d, -, hd, hh, -⟩ := hi.object hobj
    cases hd
    exact hh

/-- In the empty store no object is there. -/
theorem StoreInv.no_object (hi : StoreInv ∅ fs) (h : Bytes) :
    fs.node (objectPath fs.cwd h) = none := by
  cases hn : fs.node (objectPath fs.cwd h) with
  | none => rfl
  | some n =>
    obtain ⟨d, hd, -⟩ := hi.object hn
    cases hd

theorem NoStore.init_inv (h : NoStore fs) : StoreInv ∅ (casInit fs (ascii ".")).2 :=
  h.runInv.store.mono (by rintro d ⟨op, hop, -⟩; cases hop)

theorem StoreInv.first_store (hi : StoreInv ∅ fs) (data : Bytes) :
    SafeStep fs (.storeMemory .none data (some (blobHash data))) (fs.addObject (blobHash data) data) := by
  have hs := FaultyStep.storeMemory fs .none data
  rw [casStoreBlobFromMemoryWith_none,
    casStoreBlobFromMemory_ready hi.ready (hi.noTmp (isHash_blobHash data))] at hs
  exact ⟨hs, .inr ⟨hi.no_object _, .inr (.inr fun w hw => by cases hw)⟩⟩

/-- After one store. -/
theorem fault_runs_hello :
    let fs₀ := (casInit workDir (ascii ".")).2
    let fs := fs₀.addObject (blobHash (ascii "hello")) (ascii "hello")
    Run SafeStep fs₀ [.storeMemory .none (ascii "hello") (some (blobHash (ascii "hello")))] fs ∧
      ∀ op fs', FaultyStep fs op fs' → (op.Sound fs fs' ↔ op.Safe fs) := by
  intro fs₀ fs
  have hrun := Run.single (workDir_noStore.init_inv.first_store (ascii "hello"))
  exact ⟨hrun, (fault_runs workDir_noStore hrun).2.2⟩

/-! ## 5. A copy that stops early -/

/-- The first `fwrite` of the copy comes up short. -/
def shortWrite : FileFaults := ⟨false, none, ⟨false, false, none, some ⟨0, true⟩⟩⟩

/-- **Half an object stays**: the store fails, and the next store of the same file takes for its
object what the first has left. -/
theorem short_copy_twice (hready : StoreReady fs) {path data : Bytes}
    (hr : fs.read path = some data) (hn : fs.node (objectPath fs.cwd (blobHash data)) = none)
    (hne : data ≠ []) :
    casStoreBlobFromFileWith shortWrite fs path = (none, fs.addObject (blobHash data) []) ∧
      casStoreBlobFromFileWith .none (fs.addObject (blobHash data) []) path
        = (some (blobHash data), (fs.addObject (blobHash data) []).addObject (blobHash data) data) := by
  constructor
  · rw [casStoreBlobFromFileWith_ready hready, shortWrite, if_neg Bool.false_ne_true, hr]
    simp [storedFile, FS.addObject, hn, cut, writeSucceeds, written, hne]
  · have hread : (fs.addObject (blobHash data) []).read path = some data := by
      cases hp : fs.node (resolve fs.cwd path) with
      | none => exact absurd hp (FS.node_ne_none_of_read hr)
      | some n =>
        rw [← hr]
        refine FS.read_congr (FS.addObject_cwd ..) ?_
        rw [hp, FS.addObject_node_of_some hp]
    have hcut : cut FileFaults.none.stop data = data := rfl
    rw [casStoreBlobFromFileWith_ready (hready.addObject ..), if_neg (by simp [FileFaults.none]),
      hread]
    dsimp only
    rw [hcut]
    refine storedFile_present ?_ _ _
    rw [FS.addObject_cwd, FS.addObject_node_object hn]
    simp

/-- Neither of the two does what is asked of it. -/
theorem short_copy_unsound (hready : StoreReady fs) {path data : Bytes}
    (hl : fs.lookup path = some (.file data))
    (hn : fs.node (objectPath fs.cwd (blobHash data)) = none) (hne : data ≠ []) :
    ∃ fs₁ fs₂, FaultyStep fs (.storeFile shortWrite path none) fs₁ ∧
      ¬ (FaultyOp.storeFile shortWrite path none).Sound fs fs₁ ∧
      FaultyStep fs₁ (.storeFile .none path (some (blobHash data))) fs₂ ∧
      ¬ (FaultyOp.storeFile .none path (some (blobHash data))).Sound fs₁ fs₂ := by
  obtain ⟨he1, he2⟩ := short_copy_twice hready (by rw [FS.read, hl]) hn hne
  have hleft := FS.addObject_node_object hn []
  have h1 := FaultyStep.storeFile fs shortWrite path
  rw [he1] at h1
  have h2 := FaultyStep.storeFile (fs.addObject (blobHash data) []) .none path
  rw [he2] at h2
  refine ⟨_, _, h1, fun h => ?_, h2, fun h => ?_⟩
  · have := (h.failed rfl _ _).mp hleft
    rw [hn] at this
    cases this
  · -- the object still has no bytes, and the file does
    obtain ⟨d, hsrc, hhash, hobj⟩ := h.stored _ rfl
    have hlook : (fs.addObject (blobHash data) []).lookup path = some (.file data) := by
      rw [← hl]
      cases hp : fs.node (resolve fs.cwd path) with
      | none => simp [FS.lookup, hp] at hl
      | some n =>
        refine FS.lookup_congr (FS.addObject_cwd ..) ?_
        rw [hp, FS.addObject_node_of_some hp]
    obtain rfl : data = d := by simpa [FaultyOp.source, hlook] using hsrc
    rw [FS.addObject_cwd, FS.addObject_node_of_some hleft] at hobj
    cases hobj
    exact hne rfl

/-- A working directory with one file. -/
def inputDir : FS := workDir.set [ascii "w", ascii "i"] (some (.file (ascii "hello")))

theorem inputDir_noStore : NoStore inputDir where
  cwd := by decide
  empty q := by
    have hi : ascii ".reprovm" ≠ ascii "i" := by decide
    rw [inputDir, FS.set_cwd, FS.set_node_ne _ _ (by simp [workDir, reprovmDir, hi])]
    exact workDir_noStore.empty q

/-- A first store that fails and leaves half an object, and a second that returns its hash. -/
theorem short_copy_stays : NoStore inputDir ∧
    ∃ fs₁ fs₂, FaultyStep (casInit inputDir (ascii ".")).2
        (.storeFile shortWrite (ascii "i") none) fs₁ ∧
      ¬ (FaultyOp.storeFile shortWrite (ascii "i") none).Sound (casInit inputDir (ascii ".")).2 fs₁ ∧
      FaultyStep fs₁ (.storeFile .none (ascii "i") (some (blobHash (ascii "hello")))) fs₂ ∧
      ¬ (FaultyOp.storeFile .none (ascii "i") (some (blobHash (ascii "hello")))).Sound fs₁ fs₂ :=
  ⟨inputDir_noStore, short_copy_unsound inputDir_noStore.init_inv.ready (by decide +kernel)
    (inputDir_noStore.init_inv.no_object _) (by decide)⟩

end ReproVM
