/-
# Asking the store

`cas_blob_exists` and `cas_get_object_path` go through `make_object_path` like the store functions,
so a question makes the two-letter directory of whatever hash it is asked about.  Here the questions
come anywhere among the operations of a run, about any string at all: they leave the store to hold
what was stored (`QueryStep.inv`), and for a string that `validate_hash` accepts the answer is
about the contents and not about the tree.  A blob exists iff one with that hash was stored before,
and a path that was given out reads, at any later time, as the content under its hash.
-/
import ReproVM.BlobPaths
import ReproVM.CasRuns
import ReproVM.Security

namespace ReproVM

open Bytes (ascii)
open Lib (Run)

variable {fs fs' : FS} {hash : Bytes}

/-! ## 1. Questions -/

def casGetObjectPath (fs : FS) (hash : Bytes) (sz : Nat) : Option Bytes × FS :=
  makeObjectPath fs hash sz

/-- An operation of the store, or a question with its answer. -/
inductive QueryOp
  | cas (op : CasOp)
  | blobExists (hash : Bytes) (ret : Bool)
  | getObjectPath (hash : Bytes) (sz : Nat) (ret : Option Bytes)

def QueryOp.casOp : QueryOp → Option CasOp
  | .cas op => some op
  | _ => none

/-- The operations of a run, without its questions. -/
def casOps (qs : List QueryOp) : List CasOp := qs.filterMap QueryOp.casOp

inductive QueryStep : FS → QueryOp → FS → Prop
  | cas {fs fs' : FS} {op : CasOp} (h : CasStep fs op fs') : QueryStep fs (.cas op) fs'
  | blobExists (fs : FS) (hash : Bytes) :
      QueryStep fs (.blobExists hash (casBlobExists fs hash).1) (casBlobExists fs hash).2
  | getObjectPath (fs : FS) (hash : Bytes) (sz : Nat) :
      QueryStep fs (.getObjectPath hash sz (casGetObjectPath fs hash sz).1)
        (casGetObjectPath fs hash sz).2

theorem casBlobExists_snd (fs : FS) (hash : Bytes) :
    (casBlobExists fs hash).2 = (makeObjectPath fs hash 2048).2 := by
  rw [casBlobExists]
  rcases makeObjectPath fs hash 2048 with ⟨_ | path, fs'⟩ <;> rfl

/-- **A question only adds directories** of the store. -/
theorem QueryStep.cases {q : QueryOp} (hs : QueryStep fs q fs') :
    (∃ op, q.casOp = some op ∧ CasStep fs op fs') ∨
      q.casOp = none ∧ ∃ ps, (∀ p ∈ ps, StorePlace fs.cwd p) ∧ fs' = fs.addDirs ps := by
  cases hs with
  | cas h => exact .inl ⟨_, rfl, h⟩
  | blobExists hash =>
    rw [casBlobExists_snd]
    exact .inr ⟨rfl, makeObjectPath_snd fs hash 2048⟩
  | getObjectPath hash sz => exact .inr ⟨rfl, makeObjectPath_snd fs hash sz⟩

theorem RunInv.addDirs {ops : List CasOp} (hi : RunInv ops fs) {ps : List Path}
    (hps : ∀ p ∈ ps, StorePlace fs.cwd p) : RunInv ops (fs.addDirs ps) where
  store := hi.store.addDirs hps
  objects op hop data hc := by
    obtain ⟨hh, n, hn⟩ := hi.objects op hop data hc
    exact ⟨hh, n, FS.addDirs_node_of_some hn ps⟩

/-- The store holds what the operations stored, whatever is asked between them. -/
theorem QueryStep.inv {qs : List QueryOp} {q : QueryOp} (hs : QueryStep fs q fs')
    (hi : RunInv (casOps qs) fs) : RunInv (casOps (qs ++ [q])) fs' := by
  rw [casOps, List.filterMap_append, ← casOps]
  rcases hs.cases with ⟨op, hop, hstep⟩ | ⟨hnone, ps, hps, rfl⟩
  · rw [List.filterMap_cons_some hop]
    exact hi.step hstep
  · rw [List.filterMap_cons_none hnone, List.filterMap_nil, List.append_nil]
    exact hi.addDirs hps

theorem queryRun_inv {fs₀ : FS} (h : NoStore fs₀) {qs : List QueryOp}
    (hrun : Run QueryStep (casInit fs₀ (ascii ".")).2 qs fs) : RunInv (casOps qs) fs :=
  hrun.inv (I := fun qs fs => RunInv (casOps qs) fs) h.runInv fun _ _ _ _ _ hi hs => hs.inv hi

/-! ## 2. The path of an accepted hash -/

/-- Hexadecimal digits of either case make a name. -/
theorem isName_of_xdigits {c : Bytes} (hc : ∀ x ∈ c, isxdigit x) (hne : c ≠ []) : IsName c where
  slash h := absurd (hc 47 h) (by decide)
  notEmpty := hne
  dot := by
    rintro rfl
    exact absurd (hc 46 (by decide)) (by decide)
  dotdot := by
    rintro rfl
    exact absurd (hc 46 (by decide)) (by decide)

theorem isName_take (hv : validateHash (some hash) = .ok ()) : IsName (hash.take 2) := by
  obtain ⟨hlen, hx⟩ := validateHash_ok.mp hv
  refine isName_of_xdigits (fun x h => hx x (List.mem_of_mem_take h)) fun he => ?_
  simpa [hlen] using congrArg List.length he

theorem isName_drop (hv : validateHash (some hash) = .ok ()) : IsName (hash.drop 2) := by
  obtain ⟨hlen, hx⟩ := validateHash_ok.mp hv
  refine isName_of_xdigits (fun x h => hx x (List.mem_of_mem_drop h)) fun he => ?_
  simpa [hlen] using congrArg List.length he

/-- The store gives accepted hashes only. -/
theorem IsHash.accepted (hh : IsHash hash) : validateHash (some hash) = .ok () :=
  have hx : ∀ c ∈ ascii "0123456789abcdef", isxdigit c := by decide
  validateHash_ok.mpr ⟨hh.length, fun c hc => hx c (hh.hex c hc)⟩

/-- Its path leads to its place, as for the hashes the store itself gives. -/
theorem lookup_accepted (hv : validateHash (some hash) = .ok ()) (fs : FS) :
    fs.lookup (objectFile hash) = fs.node (objectPath fs.cwd hash) := by
  have hres : resolve fs.cwd (objectFile hash) = objectPath fs.cwd hash := by
    rw [objectFile, resolve_name (by simp) (isName_drop hv), resolve_name (by decide)
      (isName_take hv), resolve_objectsRoot, objectPath, objectDir]
  have hname : namesDir (objectFile hash) = false := namesDir_name (isName_drop hv)
  rw [FS.lookup, if_neg (by simp [objectFile]), hres, hname]
  cases fs.node (objectPath fs.cwd hash) with
  | none => rfl
  | some n => cases n <;> rfl

/-- A buffer of 89 bytes has room for it. -/
theorem casGetObjectPath_accepted (hs : StoreDirs fs) (hv : validateHash (some hash) = .ok ())
    {sz : Nat} (hsz : 89 ≤ sz) : (casGetObjectPath fs hash sz).1 = some (objectFile hash) := by
  obtain ⟨hlen, -⟩ := validateHash_ok.mp hv
  have hthree : 3 ≤ hash.length := by omega
  obtain ⟨ps, hm, -⟩ := hs.makeObjectPath hthree
  have hfit : snprintf sz (objectsRoot ++ 47 :: hash.take 2 ++ 47 :: hash.drop 2)
      = objectFile hash := by
    apply List.take_of_length_le
    have h22 : objectsRoot.length = 22 := by decide
    simp [h22, hlen]
    omega
  have hlong : ¬ hash.length < 3 := by omega
  simp only [makeObjectPath, if_neg hlong, snprintf_dir] at hm
  simp only [casGetObjectPath, makeObjectPath, if_neg hlong, snprintf_dir]
  rcases he : fs.ensureDirRecursive (objectsRoot ++ 47 :: hash.take 2) with ⟨_ | _, fs₁⟩
  · rw [he] at hm
    cases hm
  · exact congrArg some hfit

/-! ## 3. Answers -/

theorem StoreInv.storeDirs {S : Set Bytes} (hi : StoreInv S fs) : StoreDirs fs :=
  ⟨hi.cwd, hi.reprovm, hi.cas, hi.objects⟩

/-- What lies at the place of a hash is a content with that hash. -/
theorem StoreInv.at_object {S : Set Bytes} (hi : StoreInv S fs) {n : Node}
    (hn : fs.node (objectPath fs.cwd hash) = some n) :
    ∃ data ∈ S, n = .file data ∧ blobHash data = hash := by
  rw [objectPath_eq] at hn
  rcases hi.below _ _ hn with ⟨-, hlen⟩ | ⟨data, hd, hfile, he, -⟩
  · simp at hlen
  · rw [← objectPath_eq] at he
    exact ⟨data, hd, hfile, (objectPath_inj he).symm⟩

theorem RunInv.node_object_iff {ops : List CasOp} (hi : RunInv ops fs) :
    (fs.node (objectPath fs.cwd hash)).isSome ↔ ∃ data ∈ stored ops, blobHash data = hash := by
  rw [Option.isSome_iff_exists]
  constructor
  · rintro ⟨n, hn⟩
    obtain ⟨data, hd, -, hh⟩ := hi.store.at_object hn
    exact ⟨data, hd, hh⟩
  · rintro ⟨data, ⟨op, hop, hc⟩, rfl⟩
    exact (hi.objects op hop data hc).2

/-- **`cas_blob_exists`** in a state of a run. -/
theorem RunInv.blobExists {ops : List CasOp} (hi : RunInv ops fs)
    (hv : validateHash (some hash) = .ok ()) :
    (casBlobExists fs hash).1 = true ↔ ∃ data ∈ stored ops, blobHash data = hash := by
  have hpath : (casGetObjectPath fs hash 2048).1 = some (objectFile hash) :=
    casGetObjectPath_accepted hi.store.storeDirs hv (by decide)
  obtain ⟨ps, hps, hsnd⟩ := makeObjectPath_snd fs hash 2048
  have hm : makeObjectPath fs hash 2048 = (some (objectFile hash), fs.addDirs ps) :=
    Prod.ext hpath hsnd
  rw [← (hi.addDirs hps).node_object_iff, ← lookup_accepted hv, casBlobExists, hm]
  rfl

/-- What is read at the path of a hash. -/
theorem RunInv.read_object {ops : List CasOp} (hi : RunInv ops fs)
    (hcf : CollisionFree (stored ops)) (hv : validateHash (some hash) = .ok ()) {data : Bytes} :
    fs.read (objectFile hash) = some data ↔ data ∈ stored ops ∧ blobHash data = hash := by
  rw [FS.read, lookup_accepted hv]
  cases hn : fs.node (objectPath fs.cwd hash) with
  | none =>
    constructor
    · rintro ⟨⟩
    · intro h
      have hsome := hi.node_object_iff.mpr ⟨data, h⟩
      rw [hn] at hsome
      cases hsome
  | some n =>
    obtain ⟨d, hd, rfl, rfl⟩ := hi.store.at_object hn
    constructor
    · intro h
      obtain rfl := Option.some.inj h
      exact ⟨hd, rfl⟩
    · rintro ⟨hmem, hh⟩
      exact congrArg some (blobHash_inj hcf hd hmem hh.symm)

/-- **The store answers by content**, in every run of stores, restores, edits and questions, and for
every string `validate_hash` accepts: a blob exists iff a content with that hash was stored before
the question; and a path that was given out, in a buffer with room for it, reads at the end of the
run as the content under that hash, and cannot be read if none was stored. -/
theorem store_answers {fs₀ : FS} (h : NoStore fs₀) {qs : List QueryOp}
    (hrun : Run QueryStep (casInit fs₀ (ascii ".")).2 qs fs)
    (hcf : CollisionFree (stored (casOps qs))) :
    (∀ before hash ret after, qs = before ++ .blobExists hash ret :: after →
      validateHash (some hash) = .ok () →
        (ret = true ↔ ∃ data ∈ stored (casOps before), blobHash data = hash)) ∧
      ∀ hash sz ret, .getObjectPath hash sz ret ∈ qs → validateHash (some hash) = .ok () →
        89 ≤ sz → ∃ path, ret = some path ∧ ∀ data,
          fs.read path = some data ↔ data ∈ stored (casOps qs) ∧ blobHash data = hash := by
  constructor
  · rintro before hash ret after rfl hv
    obtain ⟨t, t', hbefore, hstep, -⟩ := hrun.split_step
    cases hstep
    exact (queryRun_inv h hbefore).blobExists hv
  · intro hash sz ret hmem hv hsz
    obtain ⟨before, after, rfl⟩ := List.append_of_mem hmem
    obtain ⟨t, t', hbefore, hstep, -⟩ := hrun.split_step
    cases hstep
    refine ⟨objectFile hash, ?_, fun data => (queryRun_inv h hrun).read_object hcf hv⟩
    exact casGetObjectPath_accepted (queryRun_inv h hbefore).store.storeDirs hv hsz

/-- In an empty directory: the path of a hash, then a store of its content, then the question. -/
theorem store_answers_hello :
    let h := blobHash (ascii "hello")
    let fs₁ := (casGetObjectPath (casInit workDir (ascii ".")).2 h 2048).2
    let fs₂ := (casStoreBlobFromMemory fs₁ (ascii "hello")).2
    (casBlobExists fs₂ h).1 = true ∧
      ∃ path, (casGetObjectPath (casInit workDir (ascii ".")).2 h 2048).1 = some path ∧
        (casBlobExists fs₂ h).2.read path = some (ascii "hello") := by
  intro h fs₁ fs₂
  have hrun := ((Run.single (QueryStep.getObjectPath (casInit workDir (ascii ".")).2 h 2048)).snoc
    (QueryStep.cas (CasStep.storeMemory fs₁ (ascii "hello")))).snoc (QueryStep.blobExists fs₂ h)
  have hv : validateHash (some h) = .ok () := (isHash_blobHash _).accepted
  have hstored : stored [.storeMemory (ascii "hello")
      (casStoreBlobFromMemory fs₁ (ascii "hello")).1] = {ascii "hello"} := by
    ext data
    simp [stored, CasOp.content, eq_comm]
  obtain ⟨hexists, hpath⟩ := store_answers workDir_noStore hrun
    (hstored ▸ Set.injOn_singleton sha256 _)
  refine ⟨(hexists [_, _] h _ [] rfl hv).mpr ⟨ascii "hello", ?_, rfl⟩, ?_⟩
  · exact hstored.symm ▸ rfl
  · obtain ⟨path, hret, hread⟩ := hpath h 2048 _ List.mem_cons_self hv (by decide)
    refine ⟨path, hret, (hread _).mpr ⟨?_, rfl⟩⟩
    exact hstored.symm ▸ rfl

end ReproVM
