/-
# The file system under the store

A tree of directories and regular files, and the calls `util.c` and `cas.c` make on it:
`stat`, `fopen`, `mkdir`, `rename`, `unlink` and what is built from them, `file_exists`,
`ensure_dir_recursive` and `copy_file`.  A `Path` is the list of the names from the root; a path
string is resolved lexically, from the working directory or the root, so a tree has no symbolic
links.  No call fails but for what is (or is not) in the tree.

What the later modules need of these calls is where they leave the tree alone: `mkdir` only adds
(`mkdirAll_eq`), and writing a file changes one place (`copyFile_eq`).
-/
import ReproVM.Util
import Mathlib.Logic.Function.Basic
import Mathlib.Order.Basic

namespace ReproVM

open Bytes (ascii pieces)

/-! ## 1. Trees and paths -/

/-- The names from the root down. -/
abbrev Path := List Bytes

inductive Node
  | file (data : Bytes)
  | dir
deriving DecidableEq

@[ext] structure FS where
  cwd : Path
  node : Path → Option Node

/-- One component of a path string, from the place `p`. -/
def walk (p : Path) (c : Bytes) : Path :=
  if c = [] ∨ c = ascii "." then p else if c = ascii ".." then p.dropLast else p ++ [c]

/-- The place a path string names. -/
def resolve (cwd : Path) (s : Bytes) : Path :=
  (pieces 47 s).foldl walk (if s.head? = some 47 then [] else cwd)

/-- A path string that ends in a slash or in a dot component names no regular file. -/
def namesDir (s : Bytes) : Bool :=
  match (pieces 47 s).getLast? with
  | none => true
  | some c => c = [] || c = ascii "." || c = ascii ".."

namespace FS

def set (fs : FS) (p : Path) (n : Option Node) : FS :=
  { fs with node := Function.update fs.node p n }

@[simp] theorem set_cwd (fs : FS) (p : Path) (n : Option Node) : (fs.set p n).cwd = fs.cwd := rfl

@[simp] theorem set_node_self (fs : FS) (p : Path) (n : Option Node) : (fs.set p n).node p = n :=
  Function.update_self ..

theorem set_node_ne (fs : FS) {p q : Path} (n : Option Node) (h : q ≠ p) :
    (fs.set p n).node q = fs.node q :=
  Function.update_of_ne h ..

@[simp] theorem set_set (fs : FS) (p : Path) (n m : Option Node) :
    (fs.set p n).set p m = fs.set p m := by
  simp [set]

/-! ## 2. The calls -/

/-- `stat`, and the check a call makes before it opens a file. -/
def lookup (fs : FS) (s : Bytes) : Option Node :=
  if s = [] then none
  else
    match fs.node (resolve fs.cwd s) with
    | some (.file d) => if namesDir s then none else some (.file d)
    | n => n

def fileExists (fs : FS) (s : Bytes) : Bool := (fs.lookup s).isSome

/-- What a loop of `fread` after `fopen(s, "rb")` delivers.  A directory can be opened; reading
it gives nothing. -/
def read (fs : FS) (s : Bytes) : Option Bytes :=
  match fs.lookup s with
  | none => none
  | some (.file d) => some d
  | some .dir => some []

/-- `fopen(s, "wb")`: the file is there afterwards and empty. -/
def openWrite (fs : FS) (s : Bytes) : Option FS :=
  let p := resolve fs.cwd s
  if namesDir s ∨ fs.node p = some .dir ∨ fs.node p.dropLast ≠ some .dir then none
  else some (fs.set p (some (.file [])))

/-- `fwrite` to a file that was opened for writing. -/
def write (fs : FS) (p : Path) (data : Bytes) : FS :=
  match fs.node p with
  | some (.file d) => fs.set p (some (.file (d ++ data)))
  | _ => fs

/-- The outcomes of `mkdir` that its callers tell apart. -/
inductive Mkdir
  | made (fs : FS)
  | eexist
  | error

def mkdir (fs : FS) (s : Bytes) : Mkdir :=
  let p := resolve fs.cwd s
  if s = [] then .error
  else if (fs.node p).isSome then .eexist
  else if fs.node p.dropLast = some .dir then .made (fs.set p (some .dir))
  else .error

/-- `rename` of a regular file. -/
def rename (fs : FS) (src dst : Bytes) : Option FS :=
  let p := resolve fs.cwd src
  let q := resolve fs.cwd dst
  match fs.lookup src with
  | some (.file d) =>
    if namesDir dst ∨ fs.node q = some .dir ∨ fs.node q.dropLast ≠ some .dir then none
    else some ((fs.set p none).set q (some (.file d)))
  | _ => none

/-- `unlink` of a regular file. -/
def unlink (fs : FS) (s : Bytes) : FS :=
  match fs.lookup s with
  | some (.file _) => fs.set (resolve fs.cwd s) none
  | _ => fs

/-! ## 3. `util.c` -/

/-- The `mkdir` calls of `ensure_dir_recursive`: all must succeed or find something there. -/
def mkdirAll (fs : FS) : List Bytes → Bool × FS
  | [] => (true, fs)
  | s :: ss =>
    match fs.mkdir s with
    | .made fs' => mkdirAll fs' ss
    | .eexist => mkdirAll fs ss
    | .error => (false, fs)

/-- The strings `tmp` holds while its loop has cut it at a slash; `done` is what the loop has
passed. -/
def slashCuts (done : Bytes) : Bytes → List Bytes
  | [] => []
  | c :: rest => if c = 47 then done :: slashCuts (done ++ [c]) rest else slashCuts (done ++ [c]) rest

def ensureDirRecursive (fs : FS) (path : Bytes) : Bool × FS :=
  let tmp := path.take 4095
  if tmp = [] then (false, fs)
  else
    let tmp := if tmp.getLast? = some 47 then tmp.dropLast else tmp
    match tmp with
    | [] => fs.mkdirAll [[]]
    | c :: rest => fs.mkdirAll (slashCuts [c] rest ++ [c :: rest])

/-- The results of `fread(buf, 1, 8192, f)` up to the first empty one. -/
def freadLoop : Nat → Bytes → List Bytes
  | 0, _ => []
  | n + 1, data => if data = [] then [] else data.take 8192 :: freadLoop n (data.drop 8192)

def freadChunks (data : Bytes) : List Bytes := freadLoop data.length data

def copyFile (fs : FS) (src dst : Bytes) : Bool × FS :=
  match fs.lookup src with
  | none => (false, fs)
  | some _ =>
    match fs.openWrite dst with
    | none => (false, fs)
    | some fs' =>
      -- the source is read after the destination was truncated
      let data := (fs'.read src).getD []
      (true, (freadChunks data).foldl (fun f buf => f.write (resolve fs.cwd dst) buf) fs')

/-! ## 4. What writing does -/

theorem freadLoop_flatten (n : Nat) (data : Bytes) (h : data.length ≤ n) :
    (freadLoop n data).flatten = data := by
  induction n generalizing data with
  | zero => simp_all [freadLoop]
  | succ n ih =>
    rw [freadLoop]
    by_cases hd : data = []
    · simp [hd]
    · have hpos : 0 < data.length := List.length_pos_iff.mpr hd
      rw [if_neg hd, List.flatten_cons, ih _ (by rw [List.length_drop]; omega),
        List.take_append_drop]

/-- The chunks are the file. -/
@[simp] theorem freadChunks_flatten (data : Bytes) : (freadChunks data).flatten = data :=
  freadLoop_flatten _ data (Nat.le_refl _)

/-- `fopen(s, "wb")` can succeed. -/
structure Writable (fs : FS) (s : Bytes) : Prop where
  name : namesDir s = false
  notDir : fs.node (resolve fs.cwd s) ≠ some .dir
  parent : fs.node (resolve fs.cwd s).dropLast = some .dir

instance (fs : FS) (s : Bytes) : Decidable (fs.Writable s) :=
  decidable_of_iff (namesDir s = false ∧ fs.node (resolve fs.cwd s) ≠ some .dir ∧
      fs.node (resolve fs.cwd s).dropLast = some .dir)
    ⟨fun ⟨h1, h2, h3⟩ => ⟨h1, h2, h3⟩, fun ⟨h1, h2, h3⟩ => ⟨h1, h2, h3⟩⟩

/-- What decides is where the directories are. -/
theorem writable_congr {fs fs' : FS} {s : Bytes} (hc : fs'.cwd = fs.cwd)
    (hd : fs'.node (resolve fs.cwd s) = some .dir ↔ fs.node (resolve fs.cwd s) = some .dir)
    (hp : fs'.node (resolve fs.cwd s).dropLast = some .dir ↔
      fs.node (resolve fs.cwd s).dropLast = some .dir) : fs'.Writable s ↔ fs.Writable s := by
  constructor
  · rintro ⟨h1, h2, h3⟩
    rw [hc] at h2 h3
    exact ⟨h1, fun he => h2 (hd.mpr he), hp.mp h3⟩
  · rintro ⟨h1, h2, h3⟩
    refine ⟨h1, ?_, ?_⟩ <;> rw [hc]
    · exact fun he => h2 (hd.mp he)
    · exact hp.mpr h3

theorem openWrite_eq (fs : FS) (s : Bytes) :
    fs.openWrite s =
      if fs.Writable s then some (fs.set (resolve fs.cwd s) (some (.file []))) else none := by
  by_cases h : fs.Writable s
  · obtain ⟨h1, h2, h3⟩ := h
    simp [openWrite, h1, h2, h3, Writable.mk h1 h2 h3]
  · rw [if_neg h, openWrite, if_pos]
    by_contra hc
    rw [not_or, not_or, not_not] at hc
    exact h ⟨by simpa using hc.1, hc.2.1, hc.2.2⟩

theorem write_file {fs : FS} {p : Path} {d : Bytes} (h : fs.node p = some (.file d))
    (data : Bytes) : fs.write p data = fs.set p (some (.file (d ++ data))) := by
  rw [write, h]

theorem foldl_write {fs : FS} {p : Path} {d : Bytes} (h : fs.node p = some (.file d))
    (bufs : List Bytes) :
    bufs.foldl (fun f buf => f.write p buf) fs = fs.set p (some (.file (d ++ bufs.flatten))) := by
  induction bufs generalizing fs d with
  | nil =>
    ext q
    · rfl
    · by_cases hq : q = p
      · simp [hq, h]
      · simp [set_node_ne _ _ hq]
  | cons b bufs ih =>
    rw [List.foldl_cons, write_file h, ih (set_node_self ..), set_set, List.append_assoc,
      List.flatten_cons]

/-- What is read at a place where the two trees agree. -/
theorem lookup_congr {fs fs' : FS} {s : Bytes} (hc : fs'.cwd = fs.cwd)
    (h : fs'.node (resolve fs.cwd s) = fs.node (resolve fs.cwd s)) : fs'.lookup s = fs.lookup s := by
  rw [lookup, lookup, hc, h]

theorem read_congr {fs fs' : FS} {s : Bytes} (hc : fs'.cwd = fs.cwd)
    (h : fs'.node (resolve fs.cwd s) = fs.node (resolve fs.cwd s)) : fs'.read s = fs.read s := by
  rw [read, read, lookup_congr hc h]

theorem ne_nil_of_namesDir {s : Bytes} (h : namesDir s = false) : s ≠ [] := by
  rintro rfl
  exact absurd h (by decide)

/-- Two names of a file. -/
theorem read_of_resolve_eq {fs : FS} {s t : Bytes} (hs : namesDir s = false) (ht : namesDir t = false)
    (h : resolve fs.cwd s = resolve fs.cwd t) : fs.read s = fs.read t := by
  rw [read, read, lookup, lookup, if_neg (ne_nil_of_namesDir hs),
    if_neg (ne_nil_of_namesDir ht), h, hs, ht]

/-- What was written is read. -/
theorem read_set_self {fs : FS} {s : Bytes} (h : namesDir s = false) (data : Bytes) :
    (fs.set (resolve fs.cwd s) (some (.file data))).read s = some data := by
  rw [read, lookup, if_neg (ne_nil_of_namesDir h), set_cwd, set_node_self]
  simp [h]

/-- What can be read is there. -/
theorem node_ne_none_of_read {fs : FS} {s data : Bytes} (h : fs.read s = some data) :
    fs.node (resolve fs.cwd s) ≠ none := by
  intro hn
  rw [read, lookup, hn] at h
  by_cases hs : s = [] <;> simp [hs] at h

/-- **`copy_file`** fails and does nothing, or makes the destination a file that holds the
source, as the source is once the destination is empty. -/
theorem copyFile_eq (fs : FS) (src dst : Bytes) :
    fs.copyFile src dst =
      if fs.fileExists src ∧ fs.Writable dst then
        (true, fs.set (resolve fs.cwd dst) (some (.file
          (((fs.set (resolve fs.cwd dst) (some (.file []))).read src).getD []))))
      else (false, fs) := by
  rw [copyFile, fileExists, openWrite_eq]
  cases hl : fs.lookup src with
  | none => simp
  | some n =>
    by_cases hw : fs.Writable dst
    · simp only [if_pos hw, Option.isSome_some, true_and]
      rw [foldl_write (set_node_self ..), set_set, freadChunks_flatten, List.nil_append]
    · simp [hw]

/-- A source at another place is copied as it is. -/
theorem copyFile_of_ne {fs : FS} {src dst data : Bytes} (hr : fs.read src = some data)
    (hw : fs.Writable dst) (hne : resolve fs.cwd src ≠ resolve fs.cwd dst) :
    fs.copyFile src dst = (true, fs.set (resolve fs.cwd dst) (some (.file data))) := by
  have hex : fs.fileExists src := by
    rw [read] at hr
    rw [fileExists]
    cases hl : fs.lookup src with
    | none => simp [hl] at hr
    | some n => rfl
  have hread : (fs.set (resolve fs.cwd dst) (some (.file []))).read src = fs.read src :=
    read_congr rfl (set_node_ne fs _ hne)
  rw [copyFile_eq, if_pos ⟨hex, hw⟩, hread, hr, Option.getD_some]

theorem set_same {fs : FS} {p : Path} {n : Option Node} (h : fs.node p = n) : fs.set p n = fs := by
  ext q
  · rfl
  · by_cases hq : q = p
    · rw [hq, set_node_self, h]
    · rw [set_node_ne _ _ hq]

/-- **A new file that is renamed** leaves only the file it is renamed to. -/
theorem rename_new {fs : FS} {tmp dst : Bytes} (hwt : fs.Writable tmp)
    (hnone : fs.node (resolve fs.cwd tmp) = none) (hwd : fs.Writable dst)
    (hne : resolve fs.cwd tmp ≠ resolve fs.cwd dst) (data : Bytes) :
    (fs.set (resolve fs.cwd tmp) (some (.file data))).rename tmp dst
      = some (fs.set (resolve fs.cwd dst) (some (.file data))) := by
  have hpar : (resolve fs.cwd dst).dropLast ≠ resolve fs.cwd tmp := by
    intro he
    have := hwd.parent
    rw [he, hnone] at this
    cases this
  have hlook : (fs.set (resolve fs.cwd tmp) (some (.file data))).lookup tmp = some (.file data) := by
    rw [lookup, if_neg (ne_nil_of_namesDir hwt.name), set_cwd, set_node_self]
    simp [hwt.name]
  rw [rename, hlook]
  simp only [set_cwd, set_node_ne _ _ hne.symm, set_node_ne _ _ hpar, hwd.name, hwd.parent,
    hwd.notDir, set_set]
  rw [if_neg (by simp), set_same hnone]

/-! ## 5. What `mkdir` does -/

/-- The tree with a directory at each place of `ps` where there is nothing. -/
def addDirs (fs : FS) (ps : List Path) : FS :=
  { fs with node := fun p => if fs.node p = none ∧ p ∈ ps then some .dir else fs.node p }

@[simp] theorem addDirs_cwd (fs : FS) (ps : List Path) : (fs.addDirs ps).cwd = fs.cwd := rfl

theorem addDirs_node (fs : FS) (ps : List Path) (p : Path) :
    (fs.addDirs ps).node p = if fs.node p = none ∧ p ∈ ps then some .dir else fs.node p := rfl

theorem addDirs_of_exists {fs : FS} {ps : List Path} (h : ∀ p ∈ ps, fs.node p ≠ none) :
    fs.addDirs ps = fs := by
  ext p
  · rfl
  · rw [addDirs_node, if_neg fun hp => h p hp.2 hp.1]

@[simp] theorem addDirs_nil (fs : FS) : fs.addDirs [] = fs := addDirs_of_exists (by simp)

theorem addDirs_addDirs (fs : FS) (ps qs : List Path) :
    (fs.addDirs ps).addDirs qs = fs.addDirs (ps ++ qs) := by
  ext p
  · rfl
  · simp only [addDirs_node, List.mem_append]
    by_cases hn : fs.node p = none <;> by_cases hp : p ∈ ps <;> simp [hn, hp]

/-- A place that exists keeps what it is. -/
theorem addDirs_node_of_some {fs : FS} {p : Path} {n : Node} (h : fs.node p = some n)
    (ps : List Path) : (fs.addDirs ps).node p = some n := by
  rw [addDirs_node, if_neg (by simp [h]), h]

theorem addDirs_node_of_notMem {fs : FS} {p : Path} {ps : List Path} (h : p ∉ ps) :
    (fs.addDirs ps).node p = fs.node p := by
  rw [addDirs_node, if_neg fun hp => h hp.2]

theorem set_dir {fs : FS} {p : Path} (hn : fs.node p = none) :
    fs.set p (some .dir) = fs.addDirs [p] := by
  ext q
  · rfl
  · by_cases hq : q = p
    · simp [hq, addDirs_node, hn]
    · simp [set_node_ne _ _ hq, addDirs_node, hq]

/-- `mkdir` makes a directory where there was nothing, or finds something. -/
theorem mkdir_cases (fs : FS) (s : Bytes) :
    (∃ fs', fs.mkdir s = .made fs' ∧ fs' = fs.addDirs [resolve fs.cwd s]) ∨
      (fs.mkdir s = .eexist ∧ fs = fs.addDirs [resolve fs.cwd s]) ∨ fs.mkdir s = .error := by
  rw [mkdir]
  by_cases hs : s = []
  · exact .inr (.inr (if_pos hs))
  · rw [if_neg hs]
    cases hn : fs.node (resolve fs.cwd s) with
    | some n =>
      refine .inr (.inl ⟨by simp, (addDirs_of_exists fun p hp => ?_).symm⟩)
      rw [List.mem_singleton.mp hp, hn]
      simp
    | none =>
      by_cases hp : fs.node (resolve fs.cwd s).dropLast = some .dir
      · exact .inl ⟨fs.set (resolve fs.cwd s) (some .dir), by simp [hp], set_dir hn⟩
      · exact .inr (.inr (by simp [hp]))

/-- **The `mkdir` calls only add directories**, all of them unless one fails. -/
theorem mkdirAll_eq (fs : FS) (ss : List Bytes) :
    ∃ ps, ps ⊆ ss.map (resolve fs.cwd) ∧ (fs.mkdirAll ss).2 = fs.addDirs ps ∧
      ((fs.mkdirAll ss).1 = true → ps = ss.map (resolve fs.cwd)) := by
  induction ss generalizing fs with
  | nil => exact ⟨[], by simp, by simp [mkdirAll], by simp⟩
  | cons s ss ih =>
    have hstep : ∀ fs', fs' = fs.addDirs [resolve fs.cwd s] → ∃ ps,
        ps ⊆ (s :: ss).map (resolve fs.cwd) ∧ (fs'.mkdirAll ss).2 = fs.addDirs ps ∧
          ((fs'.mkdirAll ss).1 = true → ps = (s :: ss).map (resolve fs.cwd)) := by
      rintro fs' rfl
      obtain ⟨ps, h1, h2, h3⟩ := ih (fs.addDirs [resolve fs.cwd s])
      refine ⟨resolve fs.cwd s :: ps, ?_, by rw [h2, addDirs_addDirs, List.singleton_append], ?_⟩
      · rw [List.map_cons]
        exact List.cons_subset_cons _ h1
      · intro h
        rw [h3 h, List.map_cons, addDirs_cwd]
    rcases mkdir_cases fs s with ⟨fs', hm, hfs⟩ | ⟨hm, hfs⟩ | hm
    · rw [mkdirAll, hm]
      exact hstep fs' hfs
    · rw [mkdirAll, hm]
      exact hstep fs hfs
    · rw [mkdirAll, hm]
      exact ⟨[], by simp, by simp, by simp⟩

/-- A call that makes a directory. -/
theorem mkdirAll_cons {fs : FS} {s : Bytes} (hs : s ≠ [])
    (hn : fs.node (resolve fs.cwd s) = none)
    (hp : fs.node (resolve fs.cwd s).dropLast = some .dir) (ss : List Bytes) :
    fs.mkdirAll (s :: ss) = (fs.addDirs [resolve fs.cwd s]).mkdirAll ss := by
  rcases mkdir_cases fs s with ⟨fs', hm, rfl⟩ | ⟨hm, -⟩ | hm
  · rw [mkdirAll, hm]
  · simp [mkdir, hs, hn, hp] at hm
  · simp [mkdir, hs, hn, hp] at hm

/-- A call on a place that exists does nothing. -/
theorem mkdirAll_exists {fs : FS} {s : Bytes} {n : Node} (hs : s ≠ [])
    (hn : fs.node (resolve fs.cwd s) = some n) (ss : List Bytes) :
    fs.mkdirAll (s :: ss) = fs.mkdirAll ss := by
  have hm : fs.mkdir s = .eexist := by
    rw [mkdir, if_neg hs, hn, Option.isSome_some, if_pos rfl]
  rw [mkdirAll, hm]

theorem mkdirAll_append {fs : FS} {ss : List Bytes}
    (h : ∀ s ∈ ss, s ≠ [] ∧ ∃ n, fs.node (resolve fs.cwd s) = some n) (ts : List Bytes) :
    fs.mkdirAll (ss ++ ts) = fs.mkdirAll ts := by
  induction ss with
  | nil => rfl
  | cons s ss ih =>
    obtain ⟨hs, n, hn⟩ := h s List.mem_cons_self
    rw [List.cons_append, mkdirAll_exists hs hn]
    exact ih fun t ht => h t (List.mem_cons_of_mem _ ht)

/-- The calls succeed where each place is there or may be made. -/
theorem mkdirAll_true {fs : FS} {ss : List Bytes} (h : ∀ s ∈ ss, s ≠ [] ∧
    (fs.node (resolve fs.cwd s) ≠ none ∨ fs.node (resolve fs.cwd s).dropLast = some .dir)) :
    (fs.mkdirAll ss).1 = true := by
  induction ss generalizing fs with
  | nil => rfl
  | cons s ss ih =>
    obtain ⟨hs, hplace⟩ := h s List.mem_cons_self
    have hrest := fun t ht => h t (List.mem_cons_of_mem _ ht)
    cases hn : fs.node (resolve fs.cwd s) with
    | some n =>
      rw [mkdirAll_exists hs hn]
      exact ih hrest
    | none =>
      rw [mkdirAll_cons hs hn (hplace.resolve_left (not_not_intro hn))]
      refine ih fun t ht => ⟨(hrest t ht).1, ?_⟩
      rcases (hrest t ht).2 with hex | hdir
      · obtain ⟨n, hn⟩ := Option.ne_none_iff_exists'.mp hex
        exact .inl (by rw [addDirs_cwd, addDirs_node_of_some hn]; simp)
      · exact .inr (addDirs_node_of_some hdir _)

end FS

/-! ## 6. Path strings -/

theorem resolve_append {s : Bytes} (hs : s ≠ []) (cwd : Path) (t : Bytes) :
    resolve cwd (s ++ 47 :: t) = (pieces 47 t).foldl walk (resolve cwd s) := by
  cases s with
  | nil => exact absurd rfl hs
  | cons c s =>
    rw [resolve, Bytes.pieces_append_cons, List.foldl_append]
    rfl

/-- A component that is a name. -/
structure IsName (c : Bytes) : Prop where
  slash : 47 ∉ c
  notEmpty : c ≠ []
  dot : c ≠ ascii "."
  dotdot : c ≠ ascii ".."

theorem walk_name {c : Bytes} (h : IsName c) (p : Path) : walk p c = p ++ [c] := by
  simp [walk, h.notEmpty, h.dot, h.dotdot]

theorem resolve_name {s c : Bytes} (hs : s ≠ []) (h : IsName c) (cwd : Path) :
    resolve cwd (s ++ 47 :: c) = resolve cwd s ++ [c] := by
  rw [resolve_append hs, Bytes.pieces_of_notMem h.slash, List.foldl_cons, List.foldl_nil,
    walk_name h]

theorem namesDir_name {s c : Bytes} (h : IsName c) : namesDir (s ++ 47 :: c) = false := by
  simp [namesDir, Bytes.pieces_append_cons, Bytes.pieces_of_notMem h.slash, h.notEmpty, h.dot,
    h.dotdot]

namespace FS

theorem slashCuts_of_notMem {done rest : Bytes} (h : 47 ∉ rest) : slashCuts done rest = [] := by
  induction rest generalizing done with
  | nil => rfl
  | cons c rest ih =>
    rw [List.mem_cons, not_or] at h
    rw [slashCuts, if_neg (Ne.symm h.1), ih h.2]

theorem slashCuts_append (done s t : Bytes) :
    slashCuts done (s ++ 47 :: t)
      = slashCuts done s ++ (done ++ s) :: slashCuts (done ++ s ++ [47]) t := by
  induction s generalizing done with
  | nil => simp [slashCuts]
  | cons c s ih =>
    rw [List.cons_append, slashCuts, slashCuts, ih]
    by_cases hc : c = 47 <;> simp [hc]

end FS

end ReproVM
