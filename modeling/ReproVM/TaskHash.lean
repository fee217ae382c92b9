/-
# What the task hash says about the dependencies

`task.h` and the README promise that a task's hash depends on the result hashes of its
dependencies.  What `compute_task_hash` appends for a dependency is the empty string, so two
states of the program that differ in result hashes only give a task the same hash, whatever the
hashes are.  The argument has one step that is not immediate: the inputs are hashed one after the
other and each is put into the store, so a later input may lie in the store and be there only
because of an earlier one.  `Agree` is the relation on two trees that survives this.
-/
import ReproVM.Cache

namespace ReproVM

open Bytes (ascii)

/-! ## 1. Two trees that read the same -/

/-- The path `s` cannot be read differently in the two trees, now or after storing: the places
are equal, or both are taken and read the same, or one is taken by something unreadable. -/
def Agree (fs fs' : FS) (s : Bytes) : Prop :=
  fs.node (resolve fs.cwd s) = fs'.node (resolve fs.cwd s) ∨
    fs.node (resolve fs.cwd s) ≠ none ∧ fs'.node (resolve fs.cwd s) ≠ none ∧ fs.read s = fs'.read s ∨
    fs.node (resolve fs.cwd s) ≠ none ∧ fs.read s = none ∨
    fs'.node (resolve fs.cwd s) ≠ none ∧ fs'.read s = none

variable {fs fs' : FS} {s : Bytes}

theorem agree_of_read_eq (hcwd : fs'.cwd = fs.cwd) (h : fs.read s = fs'.read s) : Agree fs fs' s := by
  cases hr : fs.read s with
  | some d =>
    have h1 := FS.node_ne_none_of_read hr
    have h2 := FS.node_ne_none_of_read (h ▸ hr : fs'.read s = some d)
    rw [hcwd] at h2
    exact .inr (.inl ⟨h1, h2, h⟩)
  | none =>
    by_cases h1 : fs.node (resolve fs.cwd s) = none
    · by_cases h2 : fs'.node (resolve fs.cwd s) = none
      · exact .inl (h1.trans h2.symm)
      · exact .inr (.inr (.inr ⟨h2, h ▸ hr⟩))
    · exact .inr (.inr (.inl ⟨h1, hr⟩))

theorem Agree.read_eq (ha : Agree fs fs' s) (hcwd : fs'.cwd = fs.cwd) {d d' : Bytes}
    (hd : fs.read s = some d) (hd' : fs'.read s = some d') : d = d' := by
  rcases ha with h | ⟨-, -, h⟩ | ⟨-, h⟩ | ⟨-, h⟩
  · rw [← FS.read_congr hcwd h.symm, hd'] at hd
    exact (Option.some.inj hd).symm
  · rw [h, hd'] at hd
    exact (Option.some.inj hd).symm
  · rw [hd] at h
    cases h
  · rw [hd'] at h
    cases h

/-- A taken place is read the same after a store. -/
theorem read_addObject (hn : fs.node (resolve fs.cwd s) ≠ none) (h data : Bytes) :
    (fs.addObject h data).read s = fs.read s := by
  obtain ⟨n, hn⟩ := Option.ne_none_iff_exists'.mp hn
  exact FS.read_congr (FS.addObject_cwd ..) (by rw [FS.addObject_node_of_some hn, hn])

theorem node_ne_none_addObject {p : Path} (hn : fs.node p ≠ none) (h data : Bytes) :
    (fs.addObject h data).node p ≠ none := by
  obtain ⟨n, hn⟩ := Option.ne_none_iff_exists'.mp hn
  rw [FS.addObject_node_of_some hn]
  simp

theorem Agree.addObject (ha : Agree fs fs' s) (hcwd : fs'.cwd = fs.cwd) (h data : Bytes) :
    Agree (fs.addObject h data) (fs'.addObject h data) s := by
  unfold Agree at ha ⊢
  simp only [FS.addObject_cwd]
  have hres : resolve fs'.cwd s = resolve fs.cwd s := by rw [hcwd]
  rcases ha with h1 | ⟨h1, h2, h3⟩ | ⟨h1, h2⟩ | ⟨h1, h2⟩
  · refine .inl ?_
    rw [FS.addObject_node, FS.addObject_node, h1, hcwd]
  · refine .inr (.inl ⟨node_ne_none_addObject h1 h data, node_ne_none_addObject h2 h data, ?_⟩)
    rw [read_addObject h1, read_addObject (by rwa [hres]), h3]
  · exact .inr (.inr (.inl ⟨node_ne_none_addObject h1 h data, by rw [read_addObject h1, h2]⟩))
  · refine .inr (.inr (.inr ⟨node_ne_none_addObject h1 h data, ?_⟩))
    rw [read_addObject (by rwa [hres]), h2]

/-! ## 2. The inputs -/

/-- A store that succeeds put the content it read into the store. -/
theorem casStoreBlobFromFile_some {path h : Bytes} (hs : casStoreBlobFromFile fs path = (some h, fs')) :
    ∃ data, fs.read path = some data ∧ h = blobHash data ∧ fs' = fs.addObject h data := by
  rcases casStoreBlobFromFile_cases fs path with ⟨-, he⟩ | ⟨data, hr, he | ⟨-, ps, -, he⟩⟩
  · rw [he] at hs
    cases hs
  · rw [he] at hs
    obtain ⟨h1, h2⟩ := Prod.mk.inj hs
    obtain rfl := Option.some.inj h1
    exact ⟨data, hr, rfl, h2.symm⟩
  · rw [he] at hs
    cases hs

/-- **The hashes of the inputs** are the same in trees that agree on the inputs. -/
theorem storeInputs_agree {paths hs hs' : List Bytes} {fs₁ fs₁' : FS} (hcwd : fs'.cwd = fs.cwd)
    (ha : ∀ p ∈ paths, Agree fs fs' p) (h : storeInputs fs paths = (some hs, fs₁))
    (h' : storeInputs fs' paths = (some hs', fs₁')) : hs = hs' := by
  induction paths generalizing fs fs' hs hs' fs₁ fs₁' with
  | nil =>
    simp only [storeInputs, Prod.mk.injEq, Option.some.injEq] at h h'
    rw [← h.1, ← h'.1]
  | cons p paths ih =>
    rw [storeInputs] at h h'
    rcases hc : casStoreBlobFromFile fs p with ⟨_ | x, g⟩ <;> rw [hc] at h
    · cases h
    rcases hc' : casStoreBlobFromFile fs' p with ⟨_ | x', g'⟩ <;> rw [hc'] at h'
    · cases h'
    obtain ⟨d, hr, rfl, rfl⟩ := casStoreBlobFromFile_some hc
    obtain ⟨d', hr', rfl, rfl⟩ := casStoreBlobFromFile_some hc'
    obtain rfl := (ha p List.mem_cons_self).read_eq hcwd hr hr'
    dsimp only at h h'
    rcases hi : storeInputs (fs.addObject (blobHash d) d) paths with ⟨_ | ys, g⟩ <;> rw [hi] at h
    · cases h
    rcases hi' : storeInputs (fs'.addObject (blobHash d) d) paths with ⟨_ | ys', g'⟩ <;>
      rw [hi'] at h'
    · cases h'
    have hys := ih (by simpa using hcwd)
      (fun q hq => (ha q (List.mem_cons_of_mem _ hq)).addObject hcwd _ _) hi hi'
    simp only [Prod.mk.injEq, Option.some.injEq] at h h'
    rw [← h.1, ← h'.1, hys]

/-! ## 3. The hash -/

/-- `compute_task_hash` gives the task the hash `key`. -/
def GivesHash (fs : FS) (task : Task) (key : Bytes) : Prop :=
  ∃ task' fs', computeTaskHash fs task = .ok (true, task', fs') ∧ task'.taskHash = some key

theorem givesHash_iff {task : Task} {key : Bytes} : GivesHash fs task key ↔
    ∃ hs fs₁, storeInputs fs task.inputs = (some hs, fs₁) ∧ (taskText task hs).length < 4096 ∧
      key = blobHash (taskText task hs) := by
  unfold GivesHash computeTaskHash
  rcases storeInputs fs task.inputs with ⟨_ | hs, fs₁⟩
  · simp
  · by_cases hl : (taskText task hs).length < 4096
    · simp only [if_pos hl]
      constructor
      · rintro ⟨t', f', he, hk⟩
        cases he
        exact ⟨hs, fs₁, rfl, hl, (Option.some.inj hk).symm⟩
      · rintro ⟨hs', f', he, -, rfl⟩
        cases he
        exact ⟨_, _, rfl, rfl⟩
    · simp only [if_neg hl]
      constructor
      · rintro ⟨t', f', he, -⟩
        cases he
      · rintro ⟨hs', f', he, hl', -⟩
        cases he
        exact absurd hl' hl

/-- The `result_hash` of the dependency `d`. -/
def depResult (w : World) (d : Bytes) : Option Bytes :=
  (findTask w.tasks d).bind fun u => w.tasks[u]?.bind Task.resultHash

/-- Two states of the program, of which `task` and `task'` are the same task, that agree on the
contents of its inputs and give at least one of its dependencies different result hashes. -/
structure UpstreamChanged (w w' : World) (task task' : Task) : Prop where
  mem : task ∈ w.tasks
  mem' : task' ∈ w'.tasks
  decl : task'.decl = task.decl
  cwd : w'.fs.cwd = w.fs.cwd
  inputs : ∀ p ∈ task.inputs, w.fs.read p = w'.fs.read p
  changed : ∃ d ∈ task.deps, ∃ r r', depResult w d = some r ∧ depResult w' d = some r' ∧ r ≠ r'

/-- **A change upstream never shows in the task hash.** -/
theorem taskHash_hides_upstream (w w' : World) (task task' : Task)
    (hc : UpstreamChanged w w' task task') :
    ¬ ∃ key key', GivesHash w.fs task key ∧ GivesHash w'.fs task' key' ∧ key ≠ key' := by
  rintro ⟨key, key', hk, hk', hne⟩
  obtain ⟨hs, fs₁, hstore, -, rfl⟩ := givesHash_iff.mp hk
  obtain ⟨hs', fs₁', hstore', -, rfl⟩ := givesHash_iff.mp hk'
  obtain ⟨-, hcmd, hinputs, -, hdeps⟩ := Task.decl_eq_iff.mp hc.decl
  rw [hinputs] at hstore'
  have hhs := storeInputs_agree hc.cwd
    (fun p hp => agree_of_read_eq hc.cwd (hc.inputs p hp)) hstore hstore'
  apply hne
  rw [hhs, taskText, taskText, hcmd, hinputs, hdeps]

/-- `b` depends on `a`, whose result hash is `r`. -/
def upstreamWorld (r : Bytes) : World where
  tasks :=
    [{ taskNew (ascii "a") with resultHash := some r },
      { taskNew (ascii "b") with cmd := some (ascii "cat a.out"), deps := [ascii "a"] }]
  fs := workDir

theorem upstreamWorld_changed : UpstreamChanged (upstreamWorld (ascii "1"))
    (upstreamWorld (ascii "2"))
    { taskNew (ascii "b") with cmd := some (ascii "cat a.out"), deps := [ascii "a"] }
    { taskNew (ascii "b") with cmd := some (ascii "cat a.out"), deps := [ascii "a"] } where
  mem := by simp [upstreamWorld]
  mem' := by simp [upstreamWorld]
  decl := rfl
  cwd := (rfl : workDir.cwd = workDir.cwd)
  inputs := by simp [taskNew]
  changed := ⟨ascii "a", by decide, ascii "1", ascii "2", by decide, by decide, by decide⟩

/-- Both states give `b` one hash, of one text. -/
theorem upstream_change_masked :
    ∃ (w w' : World) (task task' : Task) (key : Bytes), UpstreamChanged w w' task task' ∧
      GivesHash w.fs task key ∧ GivesHash w'.fs task' key :=
  ⟨upstreamWorld (ascii "1"), upstreamWorld (ascii "2"), _, _, _, upstreamWorld_changed,
    givesHash_iff.mpr ⟨[], workDir, rfl, by decide, rfl⟩,
    givesHash_iff.mpr ⟨[], workDir, rfl, by decide, rfl⟩⟩

theorem taskHash_hides_upstream_cat :
    ¬ ∃ key key',
      GivesHash workDir { taskNew (ascii "b") with
        cmd := some (ascii "cat a.out"), deps := [ascii "a"] } key ∧
      GivesHash workDir { taskNew (ascii "b") with
        cmd := some (ascii "cat a.out"), deps := [ascii "a"] } key' ∧ key ≠ key' :=
  taskHash_hides_upstream (upstreamWorld (ascii "1")) (upstreamWorld (ascii "2")) _ _
    upstreamWorld_changed

end ReproVM
