/-
# All orders of the parts end in one tree

Take a run of the parts to its end, where every task is done, and let `z` be what it leaves.  In
any other run from the same start the tree grows to that of `z` (`Toward`): what it has in
`.reprovm` is there in `z`, and what it has outside is what `z` has, but for the outputs that are
still to be written.  A task that is hashed reads nothing of these, so its key is the one that it
has in `z`; and as the keys tell the tasks apart, it is skipped in both runs, by the record that
was there at the start, or run in both, where its command sees the same.  At the end the two trees
have grown to each other, so they are the same (`parts_unique`).
-/
import ReproVM.KeyText
import ReproVM.PartsInv

namespace ReproVM

open Bytes (ascii)
open Lib (PostOrder Run)
open Relation

variable {j : Job} {x y z : Parts} {w w' : World} {t u : TaskPtr} {task task' : Task}
  {fs fs' F : FS} {ps qs : Set Path}

/-! ## 1. A tree that grows to another one -/

/-- The content is in the store, under its hash. -/
def Stored (fs : FS) (data : Bytes) : Prop :=
  fs.node (objectPath fs.cwd (blobHash data)) = some (.file data)

/-- What is in the store where the hashes tell the contents apart. -/
theorem InStore.stored {S : Set Bytes} (hi : StoreOk fs) (hS : CollisionFree S)
    (hc : contents fs ⊆ S) {data : Bytes} (hd : data ∈ S) (h : InStore fs data) : Stored fs data := by
  obtain ⟨n, hn⟩ := Option.ne_none_iff_exists'.mp h
  obtain ⟨d, -, rfl, hhash, -⟩ := hi.object hn
  rwa [blobHash_inj hS (hc ⟨_, hn⟩) hd hhash] at hn

/-- What a path reads is a content, or nothing. -/
theorem read_mem_contents {s data : Bytes} (h : fs.read s = some data) :
    data ∈ insert [] (contents fs) := by
  rw [FS.read, FS.lookup] at h
  split at h
  · cases h
  · rename_i d hl
    cases h
    split at hl
    · cases hl
    · split at hl
      · rename_i hn
        split at hl <;> cases hl
        exact .inr ⟨_, hn⟩
      · rename_i hn _
        exact .inr ⟨_, hl⟩
  · cases h
    exact .inl rfl

/-- Storing what is in the store of the other tree. -/
theorem Grows.addObject (hg : Grows ps fs F) (hi : StoreOk fs) (hF : StoreOk F) {data : Bytes}
    (hd : Stored F data) : Grows ps (fs.addObject (blobHash data) data) F where
  cwd := by rw [FS.addObject_cwd, hg.cwd]
  keep p n hp hn := by
    rw [FS.addObject_cwd] at hp
    rw [FS.addObject_node] at hn
    split at hn
    · exact hg.keep p n hp hn
    split at hn
    · rename_i hdir
      obtain rfl := Option.some.inj hn
      rw [← hg.cwd] at hdir
      obtain ⟨-, -, -, -, hobj⟩ := hF.object hd
      simp only [storeDirs, List.mem_cons, List.not_mem_nil, or_false] at hdir
      rcases hdir with rfl | rfl | rfl | rfl | rfl
      · exact hF.cwd
      · exact hF.reprovm
      · exact hF.cas
      · exact hF.objects
      · exact hobj
    split at hn
    · rename_i hobj
      obtain rfl := Option.some.inj hn
      rw [hobj, ← hg.cwd]
      exact hd
    · cases hn
  outside p hp hps := by
    rw [FS.addObject_cwd] at hp
    rw [hg.outside p hp hps, (hi.stores_addObject _ _).outside hp]
  dir p hp := by
    rw [FS.addObject_cwd] at hp
    rw [hg.dir p hp, (hi.stores_addObject _ _).outside hp]

/-- Files that can be stored to the same effect. -/
def Storable (ps : Set Path) (F : FS) (paths : List Bytes) : Prop :=
  ∀ s ∈ paths, resolve F.cwd s ∉ ps ∧ ∀ data, F.read s = some data → Stored F data

theorem Grows.store {s : Bytes} {paths : List Bytes} (hg : Grows ps fs F) (hi : StoreOk fs)
    (hF : StoreOk F) (hs : Storable ps F (s :: paths)) :
    Grows ps (casStoreBlobFromFile fs s).2 F ∧ StoreOk (casStoreBlobFromFile fs s).2 := by
  obtain ⟨hps, hstored⟩ := hs s List.mem_cons_self
  rw [hi.casStoreBlobFromFile]
  cases hr : fs.read s with
  | none => exact ⟨hg, hi⟩
  | some data =>
    refine ⟨hg.addObject hi hF (hstored data (hg.read_eq ?_ hr)), hi.addObject data⟩
    rwa [← hg.cwd]

theorem Storable.tail {s : Bytes} {paths : List Bytes} (h : Storable ps F (s :: paths)) :
    Storable ps F paths := fun p hp => h p (List.mem_cons_of_mem _ hp)

theorem Grows.storeInputs {paths : List Bytes} (hg : Grows ps fs F) (hi : StoreOk fs)
    (hF : StoreOk F) (hs : Storable ps F paths) : Grows ps (storeInputs fs paths).2 F := by
  induction paths generalizing fs with
  | nil => exact hg
  | cons s paths ih =>
    obtain ⟨h1, h2⟩ := hg.store hi hF hs
    rw [ReproVM.storeInputs]
    rcases hrun : casStoreBlobFromFile fs s with ⟨_ | h, fs₁⟩ <;> rw [hrun] at h1 h2
    · exact h1
    · have h3 := ih h1 h2 hs.tail
      dsimp only
      rcases hrest : storeInputs fs₁ paths with ⟨_ | hs, fs₂⟩ <;> rw [hrest] at h3 <;> exact h3

theorem Grows.storeOutputs {paths : List Bytes} (hg : Grows ps fs F) (hi : StoreOk fs)
    (hF : StoreOk F) (hs : Storable ps F paths) : Grows ps (storeOutputs fs paths).2 F := by
  induction paths generalizing fs with
  | nil => exact hg
  | cons s paths ih =>
    obtain ⟨h1, h2⟩ := hg.store hi hF hs
    rw [ReproVM.storeOutputs]
    split
    · exact ih h1 h2 hs.tail
    · exact ih hg hi hs.tail

theorem Grows.storeAll {paths : List Bytes} (hg : Grows ps fs F) (hi : StoreOk fs)
    (hF : StoreOk F) (hs : Storable ps F paths) : Grows ps (storeAll fs paths) F := by
  induction paths generalizing fs with
  | nil => exact hg
  | cons s paths ih =>
    obtain ⟨h1, h2⟩ := hg.store hi hF hs
    exact ih h1 h2 hs.tail

/-- Writing the record that the other tree has. -/
theorem Grows.set_record (hg : Grows ps fs F) {key : Bytes} {n : Node}
    (h : F.node (recordPath fs.cwd key) = some n) :
    Grows ps (fs.set (recordPath fs.cwd key) (some n)) F where
  cwd := hg.cwd
  keep p m hp hm := by
    by_cases hrec : p = recordPath fs.cwd key
    · subst hrec
      rwa [FS.set_node_self, ← h] at hm
    · rw [FS.set_node_ne _ _ hrec] at hm
      exact hg.keep p m hp hm
  outside p hp hps := by
    rw [hg.outside p hp hps, FS.set_node_ne]
    rintro rfl
    exact hp (inside_recordPath ..)
  dir p hp := by
    rw [hg.dir p hp, FS.set_node_ne]
    rintro rfl
    exact hp (inside_recordPath ..)

/-- Trees that have grown to each other are one. -/
theorem Grows.antisymm (h : Grows ∅ fs fs') (h' : Grows ∅ fs' fs) : fs = fs' := by
  ext p n
  · rw [h.cwd]
  · by_cases hp : Inside fs.cwd p
    · constructor
      · exact h.keep p n hp
      · exact h'.keep p n (by rwa [h.cwd])
    · rw [h.outside p hp (Set.notMem_empty p)]

/-! ## 2. The end of a run -/

/-- What has to be told apart by its hash: the contents of the files, and the texts of the tasks. -/
def Job.data (j : Job) (fs : FS) : Set Bytes :=
  insert [] (contents fs) ∪
    {text | ∃ t ∈ j.order, ∃ task, j.list[t]? = some task ∧ text = textAt fs task}

/-- All tasks are done. -/
structure AllDone (j : Job) (z : Parts) : Prop where
  inv : PartInv j z
  done : ∀ t ∈ j.order, z.stage t = .done
  free : CollisionFree (j.data z.world.fs)

theorem Job.At.keyed {st : Stage} (h : j.At w t task st) (hst : st ≠ .todo) : Keyed w.fs task := by
  cases st with
  | todo => exact absurd rfl hst
  | hashed => exact h.1
  | missed => exact Job.Running.keyed h
  | ran => exact h.1.keyed
  | done => exact h.1

theorem AllDone.at (hz : AllDone j z) (ht : t ∈ j.order) (htask : j.list[t]? = some task) :
    j.At z.world t task .done :=
  hz.done t ht ▸ hz.inv.tasks t ht task htask

theorem isHash_hashAt {s : Bytes} (h : Hashed fs s) : IsHash (hashAt fs s) := by
  obtain ⟨data, hr, -⟩ := h
  rw [hashAt, hr]
  exact isHash_blobHash data

/-- **Keys tell the tasks apart.** -/
theorem AllDone.key_inj (hz : AllDone j z) (hj : j.Ok) (ht : t ∈ j.order)
    (htask : j.list[t]? = some task) (hu : u ∈ j.order) (htask' : j.list[u]? = some task')
    (h : keyAt z.world.fs task' = keyAt z.world.fs task) : u = t := by
  have hk := (hz.at ht htask).1
  have hk' := (hz.at hu htask').1
  have htext : textAt z.world.fs task' = textAt z.world.fs task :=
    blobHash_inj hz.free (.inr ⟨u, hu, task', htask', rfl⟩) (.inr ⟨t, ht, task, htask, rfl⟩) h
  have hcmd := (taskText_eq_iff (hj.line task' (List.mem_of_getElem? htask'))
    (hj.line task (List.mem_of_getElem? htask)) (List.length_map _) (List.length_map _)
    (List.forall_mem_map.mpr fun s hs => isHash_hashAt (hk'.inputs s hs))
    (List.forall_mem_map.mpr fun s hs => isHash_hashAt (hk.inputs s hs))).mp htext
  exact hj.commands u hu t ht task' task htask' htask hcmd.1

/-- The record by which a task was skipped was there at the start. -/
theorem PartInv.record_start (hy : PartInv j y) {content : Bytes} {r : Record}
    (hs : Skipped j y.world t task content r) (htask : j.list[t]? = some task)
    (hinj : ∀ u ∈ j.order, ∀ task', j.list[u]? = some task' → y.stage u = .done →
      keyAt y.world.fs task' = keyAt y.world.fs task → u = t) :
    j.fs.read (metaPath (keyAt y.world.fs task)) = some content := by
  have hkey := isHash_keyAt y.world.fs task
  have hread := hs.read
  rcases hy.records (keyAt y.world.fs task) with hsame | ⟨u, hu, task', htask', hst, hd, he⟩
  · rwa [read_metaPath hkey, hy.grows.cwd, hsame, ← read_metaPath hkey] at hread
  · obtain rfl := hinj u hu task' htask' hst he.symm
    have hstat := hd.task.symm.trans hs.task
    obtain rfl := Option.some.inj (htask.symm.trans htask')
    exact absurd (congrArg Task.status (Option.some.inj hstat)) (by simp)

/-- A task without a record at the start was run. -/
theorem AllDone.succeeded (hz : AllDone j z) (hj : j.Ok) (ht : t ∈ j.order)
    (htask : j.list[t]? = some task) (h : j.Unrecorded z.world.fs task) :
    Succeeded j z.world t task := by
  refine (hz.at ht htask).2.resolve_left ?_
  rintro ⟨content, r, hs⟩
  have hread := hz.inv.record_start hs htask fun u hu task' htask' _ he =>
    hz.key_inj hj ht htask hu htask' he
  rw [(read_metaPath_eq_none (isHash_keyAt ..) _).mpr h] at hread
  cases hread

/-! ## 3. The same things happen -/

/-- A command that saw the same left the same. -/
theorem CommandRan.agree (hj : j.Ok) (ht : t ∈ j.order) (htask : j.list[t]? = some task)
    {fs₁ fs₂ F₁ F₂ : FS} (h : CommandRan j fs task fs₁ fs₂) (hF : CommandRan j F task F₁ F₂)
    (hin : ∀ s ∈ task.inputs, F.read s = fs.read s) :
    ∀ p ∈ task.places j.fs.cwd, F.node p = fs.node p := by
  have hsees : SeesSame task fs₁ F₁ := by
    refine ⟨hF.cwd.trans h.cwd.symm, fun s hs => ?_, fun p hp => ?_, fun p hp => ?_⟩
    · rw [hF.inputs s hs, hin s hs, h.inputs s hs]
    · rw [h.cwd] at hp
      rw [hF.before p hp, h.before p hp]
    · rw [h.cwd] at hp
      rw [hF.dir p hp, h.dir p hp]
  intro p hp
  have := (hj.deterministic t ht task htask fs₁ F₁ h.cwd hsees).2 p hp
  rwa [hF.run, h.run, ← hF.after p hp, ← h.after p hp] at this

/-- What two trees have for a task, both of which read the same for it. -/
structure SameKey (fs F : FS) (task : Task) : Prop where
  key : keyAt F task = keyAt fs task
  inputs : ∀ s ∈ task.inputs, F.read s = fs.read s

theorem Keyed.sameKey (h : Keyed fs task) (hg : Grows ps fs F)
    (hin : ∀ s ∈ task.inputs, resolve fs.cwd s ∉ ps) : SameKey fs F task := by
  obtain ⟨-, htext, hreads⟩ := h.grow hg hin
  exact ⟨congrArg blobHash htext, hreads⟩

theorem SameKey.trans (h : SameKey fs fs' task) (h' : SameKey fs' F task) : SameKey fs F task :=
  ⟨h'.key.trans h.key, fun s hs => (h'.inputs s hs).trans (h.inputs s hs)⟩

theorem SameKey.symm (h : SameKey fs F task) : SameKey F fs task :=
  ⟨h.key.symm, fun s hs => (h.inputs s hs).symm⟩

/-- **A task that is done** has left what it leaves in the other run. -/
theorem PartInv.done_agree (hy : PartInv j y) (hz : AllDone j z) (hj : j.Ok) (ht : t ∈ j.order)
    (htask : j.list[t]? = some task) (hst : y.stage t = .done)
    (hsame : ∀ u ∈ j.order, ∀ task', j.list[u]? = some task' → y.stage u = .done →
      SameKey y.world.fs z.world.fs task') :
    (∀ p ∈ task.places j.fs.cwd, y.world.fs.node p = z.world.fs.node p) ∧
      y.world.tasks[t]? = z.world.tasks[t]? := by
  have hkey := hsame t ht task htask hst
  have hat : j.At y.world t task .done := hst ▸ hy.tasks t ht task htask
  have hashed : hashedTask z.world.fs task = hashedTask y.world.fs task := by
    rw [hashedTask, hashedTask, hkey.key]
  rcases hat.2 with ⟨content, r, hs⟩ | hs
  · have hread := hy.record_start hs htask fun u hu task' htask' hstu he => by
      refine hz.key_inj hj ht htask hu htask' ?_
      rw [(hsame u hu task' htask' hstu).key, he, hkey.key]
    obtain ⟨content', r', hs'⟩ : ∃ content r, Skipped j z.world t task content r := by
      refine (hz.at ht htask).2.resolve_right fun hs' => ?_
      have hnone := hs'.unrecorded
      rw [Job.Unrecorded, hkey.key, ← read_metaPath_eq_none (isHash_keyAt ..), hread] at hnone
      cases hnone
    have hread' := hz.inv.record_start hs' htask fun u hu task' htask' _ he =>
      hz.key_inj hj ht htask hu htask' he
    rw [hkey.key, hread] at hread'
    obtain rfl := Option.some.inj hread'
    obtain rfl := Except.ok.inj (hs.record.symm.trans hs'.record)
    -- both restored what the store held at the start
    have hintact := hj.sound.cache _ content r (isHash_keyAt ..) hread hs.record
    have ho := (hj.taskOk ht htask).outside
    refine ⟨fun p hp => ?_, ?_⟩
    · rw [hs.outputs p hp, hs'.outputs p hp, hy.grows.restoreWrites_eq ho hintact,
        hz.inv.grows.restoreWrites_eq ho hintact]
    · rw [hs.task, hs'.task, hashed]
  · have hs' : Succeeded j z.world t task := hz.succeeded hj ht htask (by
      rw [Job.Unrecorded, hkey.key]
      exact hs.unrecorded)
    obtain ⟨fs₁, fs₂, hran⟩ := hs.ran
    obtain ⟨F₁, F₂, hran'⟩ := hs'.ran
    have hnode := hran.agree hj ht htask hran' hkey.inputs
    have hout : ∀ out ∈ task.outputs, z.world.fs.read out = y.world.fs.read out := fun out hmem => by
      refine FS.read_congr (hz.inv.grows.cwd.trans hy.grows.cwd.symm) ?_
      rw [hy.grows.cwd]
      exact hnode _ ⟨out, hmem, rfl⟩
    refine ⟨fun p hp => (hnode p hp).symm, ?_⟩
    rw [hs.task, hs'.task, hashed, resultAt, resultAt, resultText_congr hout]

/-! ## 4. Growing to the end -/

/-- The places of the tasks whose outputs are to be written. -/
def Parts.unwritten (j : Job) (x : Parts) : Set Path :=
  {p | ∃ t ∈ j.order, ¬ (x.stage t = .ran ∨ x.stage t = .done) ∧
    ∃ task, j.list[t]? = some task ∧ p ∈ task.places j.fs.cwd}

structure Toward (j : Job) (z x : Parts) : Prop where
  grows : Grows (x.unwritten j) x.world.fs z.world.fs
  tasks : ∀ t ∈ j.order, x.stage t = .done → x.world.tasks[t]? = z.world.tasks[t]?

theorem agree_init (hz : AllDone j z) : Toward j z (.init ⟨j.list, j.fs⟩) where
  grows := hz.inv.grows.mono <| by
    rintro p ⟨t, ht, -, hp⟩
    exact ⟨t, ht, by simp [Parts.init], hp⟩
  tasks t _ h := by cases h

/-- What a task reads when all that it depends on is done has been written. -/
theorem Job.Ok.inputs_written (hj : j.Ok) (ht : t ∈ j.order) (htask : j.list[t]? = some task)
    (hdeps : ∀ u, TransGen (DependsOn j.list) t u → x.stage u = .done) :
    ∀ s ∈ task.inputs, resolve j.fs.cwd s ∉ x.unwritten j := by
  rintro s hs ⟨u, hu, hst, task', htask', hp⟩
  by_cases hne : t = u
  · subst hne
    obtain rfl := Option.some.inj (htask.symm.trans htask')
    exact (hj.taskOk ht htask).own s hs hp
  · exact hst (.inr (hdeps u (hj.array.producer t ht u hu task task' htask htask' s hs hp hne)))

theorem Toward.sameKey (ha : Toward j z x) (hx : PartInv j x) (hj : j.Ok) (ht : t ∈ j.order)
    (htask : j.list[t]? = some task) (hst : x.stage t ≠ .todo) :
    SameKey x.world.fs z.world.fs task := by
  refine ((hx.tasks t ht task htask).keyed hst).sameKey ha.grows ?_
  rw [hx.grows.cwd]
  exact hj.inputs_written ht htask (hx.deps t ht hst)

/-- No two tasks that were hashed have one key. -/
theorem Toward.unclaimed (ha : Toward j z x) (hx : PartInv j x) (hz : AllDone j z) (hj : j.Ok)
    (ht : t ∈ j.order) (hst : x.stage t = .ran) (htask : j.list[t]? = some task) :
    x.Unclaimed j t (keyAt x.world.fs task) := by
  intro u hu hne hstu task' htask' he
  have hkey := ha.sameKey hx hj ht htask (by simp [hst])
  have hkey' := ha.sameKey hx hj hu htask' (by rcases hstu with h | h <;> simp [h])
  exact hne (hz.key_inj hj ht htask hu htask' (by rw [hkey'.key, he, hkey.key]))

/-- A part of another task, or of the task itself, leaves what a hashed task reads. -/
theorem Follows.sameKey (hf : Follows j x t y) (hx : PartInv j x) (hj : j.Ok) (ht : t ∈ j.order)
    (hst : x.stage t ≠ .done) (hu : u ∈ j.order) (htask : j.list[u]? = some task)
    (hstu : x.stage u ≠ .todo) : SameKey x.world.fs y.world.fs task := by
  obtain ⟨task', htask'⟩ := hj.declared ht
  refine ((hx.tasks u hu task htask).keyed hstu).sameKey (hf.grows task' htask') fun s hs hp => ?_
  rw [hx.grows.cwd] at hp
  by_cases hne : u = t
  · subst hne
    obtain rfl := Option.some.inj (htask.symm.trans htask')
    exact (hj.taskOk hu htask).own s hs hp
  · exact hx.not_reads hj ht htask' hst hu htask hne hstu s hs hp

/-- What is left to show of a part: what it adds in `.reprovm` is there at the end. -/
theorem Toward.next (ha : Toward j z x) (hx : PartInv j x) (hz : AllDone j z) (hj : j.Ok)
    (hf : Follows j x t y) (ht : t ∈ j.order) (hst : x.stage t ≠ .done)
    (hstage : ∀ u, u ≠ t → y.stage u = x.stage u)
    (hwrites : y.stage t = .ran ∨ y.stage t = .done → x.stage t ≠ .todo)
    (hkeep : ∀ p n, Inside j.fs.cwd p → y.world.fs.node p = some n →
      z.world.fs.node p = some n) : Toward j z y := by
  have hy := hf.inv
  have hkeyed : ∀ u ∈ j.order, y.stage u = .ran ∨ y.stage u = .done → ∀ task',
      j.list[u]? = some task' → SameKey y.world.fs z.world.fs task' := by
    intro u hu hstu task' htask'
    have hxu : x.stage u ≠ .todo := by
      by_cases hne : u = t
      · subst hne
        exact hwrites hstu
      · rw [← hstage u hne]
        rcases hstu with h | h <;> simp [h]
    exact (hf.sameKey hx hj ht hst hu htask' hxu).symm.trans (ha.sameKey hx hj hu htask' hxu)
  obtain ⟨task, htask⟩ := hj.declared ht
  have hdone : y.stage t = .done → (∀ p ∈ task.places j.fs.cwd,
      y.world.fs.node p = z.world.fs.node p) ∧ y.world.tasks[t]? = z.world.tasks[t]? := fun h =>
    hy.done_agree hz hj ht htask h fun u hu task' htask' hstu => hkeyed u hu (.inr hstu) task' htask'
  have hself : y.stage t = .ran ∨ y.stage t = .done → ∀ p ∈ task.places j.fs.cwd,
      y.world.fs.node p = z.world.fs.node p := by
    rintro (h | h) p hp
    · have hat := hy.tasks t ht task htask
      rw [h] at hat
      obtain ⟨hrunning, fs₁, fs₂, hran⟩ := hat
      have hkey := hkeyed t ht (.inl h) task htask
      have hs := hz.succeeded hj ht htask (by
        rw [Job.Unrecorded, hkey.key]
        exact hrunning.unrecorded)
      obtain ⟨F₁, F₂, hran'⟩ := hs.ran
      exact (hran.agree hj ht htask hran' hkey.inputs p hp).symm
    · exact (hdone h).1 p hp
  have hcwd := hy.grows.cwd
  refine ⟨⟨hz.inv.grows.cwd.trans hcwd.symm, fun p n hp => hkeep p n (hcwd ▸ hp), fun p hp hps => ?_,
    fun p hp => ?_⟩, fun u hu hstu => ?_⟩
  · rw [hcwd] at hp
    by_cases hpt : p ∈ task.places j.fs.cwd
    · refine (hself (not_not.mp fun h => hps ⟨t, ht, h, task, htask, hpt⟩) p hpt).symm
    · rw [(hf.grows task htask).outside p (by rwa [hx.grows.cwd]) hpt]
      refine ha.grows.outside p (by rwa [hx.grows.cwd]) ?_
      rintro ⟨u, hu, hstu, task', htask', hpu⟩
      have hne : u ≠ t := by
        rintro rfl
        exact hpt (Option.some.inj (htask.symm.trans htask') ▸ hpu)
      exact hps ⟨u, hu, by rwa [hstage u hne], task', htask', hpu⟩
  · rw [hcwd] at hp
    rw [hz.inv.grows.dir p hp, hy.grows.dir p hp]
  · by_cases hne : u = t
    · subst hne
      exact (hdone hstu).2
    · rw [hf.tasks u hne]
      exact ha.tasks u hu (hstage u hne ▸ hstu)

/-- What the end has in its store. -/
theorem AllDone.storable (hz : AllDone j z) {paths : List Bytes}
    (hps : ∀ s ∈ paths, resolve j.fs.cwd s ∉ ps)
    (hin : ∀ s ∈ paths, ∀ data, z.world.fs.read s = some data → InStore z.world.fs data) :
    Storable ps z.world.fs paths := by
  intro s hs
  rw [hz.inv.grows.cwd]
  refine ⟨hps s hs, fun data hr => ?_⟩
  exact (hin s hs data hr).stored hz.inv.sound.store hz.free
    (fun d hd => .inl (.inr hd)) (.inl (read_mem_contents hr))

/-- Storing the inputs of a task that can be hashed. -/
theorem Toward.inputs_stored (ha : Toward j z x) (hx : PartInv j x) (hz : AllDone j z) (hj : j.Ok)
    (ht : t ∈ j.order) (htask : j.list[t]? = some task)
    (hdeps : ∀ u, TransGen (DependsOn j.list) t u → x.stage u = .done) :
    Grows (x.unwritten j) (storeInputs x.world.fs task.inputs).2 z.world.fs := by
  refine ha.grows.storeInputs hx.sound.store hz.inv.sound.store
    (hz.storable (hj.inputs_written ht htask hdeps) fun s hs data hr => ?_)
  obtain ⟨d, hd, hin⟩ := (hz.at ht htask).1.inputs s hs
  obtain rfl := Option.some.inj (hr.symm.trans hd)
  exact hin

/-- Hashing a task. -/
theorem Toward.hash (ha : Toward j z x) (hx : PartInv j x) (hz : AllDone j z) (hj : j.Ok)
    (ht : t ∈ j.order) (hst : x.stage t = .todo)
    (hdeps : ∀ u, TransGen (DependsOn j.list) t u → x.stage u = .done) {outcome : Bool}
    (hw : x.world.part t outcome (hashPart x.world.fs) = some w) :
    Grows (x.unwritten j) w.fs z.world.fs := by
  obtain ⟨task, htask⟩ := hj.declared ht
  obtain ⟨task', task₁, fs₁, htask', hf, rfl⟩ := World.part_eq_some.mp hw
  have hat := hx.tasks t ht task htask
  rw [hst] at hat
  obtain ⟨st, hst'⟩ := hat
  obtain rfl := Option.some.inj (htask'.symm.trans hst')
  obtain rfl := hashPart_fs (hj.fresh task (List.mem_of_getElem? htask)).taskHash hf
  exact ha.inputs_stored hx hz hj ht htask hdeps

/-- A task whose command ran is run in the other run, too, and its outputs are those of the end. -/
theorem Toward.ran (ha : Toward j z x) (hx : PartInv j x) (hz : AllDone j z) (hj : j.Ok)
    (ht : t ∈ j.order) (htask : j.list[t]? = some task) (hst : x.stage t = .ran) :
    Succeeded j z.world t task ∧ (∀ p ∈ task.places j.fs.cwd, p ∉ x.unwritten j) ∧
      ∀ out ∈ task.outputs, z.world.fs.read out = x.world.fs.read out := by
  have hat := hx.tasks t ht task htask
  rw [hst] at hat
  have hcwd := hx.grows.cwd
  have ho : OutsideAll x.world.fs.cwd task.outputs := by
    rw [hcwd]
    exact (hj.taskOk ht htask).outside
  have hkey := ha.sameKey hx hj ht htask (by simp [hst])
  have hwritten : ∀ p ∈ task.places j.fs.cwd, p ∉ x.unwritten j := by
    rintro p hp ⟨u, hu, hstu, task', htask'', hp'⟩
    obtain rfl := hj.array.unique u hu t ht task' task htask'' htask p hp' hp
    exact hstu (.inl hst)
  refine ⟨hz.succeeded hj ht htask ?_, hwritten, (ha.grows.read_outputs ho (hcwd ▸ hwritten)).2⟩
  rw [Job.Unrecorded, hkey.key]
  exact hat.1.unrecorded

/-- Writing a record. -/
theorem Toward.record (ha : Toward j z x) (hx : PartInv j x) (hz : AllDone j z) (hj : j.Ok)
    (ht : t ∈ j.order) (hst : x.stage t = .ran)
    (hw : x.world.part t true (recordPart x.world.fs) = some w) :
    Grows (x.unwritten j) w.fs z.world.fs := by
  obtain ⟨task, htask⟩ := hj.declared ht
  obtain ⟨task', task₁, fs₁, htask', hf, rfl⟩ := World.part_eq_some.mp hw
  have hat := hx.tasks t ht task htask
  rw [hst] at hat
  obtain ⟨st, hst'⟩ := hat.1.task
  obtain rfl := Option.some.inj (htask'.symm.trans hst')
  have hcwd := hx.grows.cwd
  have hok := hj.taskOk ht htask
  have ho : OutsideAll x.world.fs.cwd task.outputs := by rw [hcwd]; exact hok.outside
  obtain ⟨-, rfl, rfl⟩ := recordPart_ok hx.sound.store ho hf
  have hkey := ha.sameKey hx hj ht htask (by simp [hst])
  obtain ⟨hdone, hwritten, hout⟩ := ha.ran hx hz hj ht htask hst
  have hs : Storable (x.unwritten j) z.world.fs task.outputs :=
    hz.storable (fun out hmem => hwritten _ ⟨out, hmem, rfl⟩) hdone.stored
  obtain ⟨-, h1, h2, -⟩ := storeOutputs_eq hx.sound.store ho
  have hg := (ha.grows.storeOutputs hx.sound.store hz.inv.sound.store hs).storeAll h2
    hz.inv.sound.store hs
  have hrec := hdone.record
  rw [hkey.key, recordOf_congr hout, ← hcwd] at hrec
  obtain ⟨h3, -⟩ := outputsStored_stores hx.sound.store ho
  have hset : (outputsStored x.world.fs task).cwd = x.world.fs.cwd := h3.cwd
  rw [← hset] at hrec
  have := Grows.set_record (show Grows _ (outputsStored x.world.fs task) _ from hg) hrec
  rwa [hset] at this

/-- **One part** brings the tree nearer to the end. -/
theorem Toward.step (ha : Toward j z x) (hx : PartInv j x) (hz : AllDone j z) (hj : j.Ok)
    (hs : PartStep j.sys j.list j.order x t y) : PartInv j y ∧ Toward j z y := by
  have hf := hx.step hj hs fun hst task htask => ha.unclaimed hx hz hj hs.mem hst htask
  refine ⟨hf.inv, ?_⟩
  have hcwd := hx.grows.cwd
  have hgrows : Grows (x.unwritten j) y.world.fs z.world.fs → ∀ p n, Inside j.fs.cwd p →
      y.world.fs.node p = some n → z.world.fs.node p = some n := fun hg p n hp hn =>
    hg.keep p n (by rwa [hf.inv.grows.cwd]) hn
  have hfiles : FilesOnly x.world.fs y.world.fs → ∀ p n, Inside j.fs.cwd p →
      y.world.fs.node p = some n → z.world.fs.node p = some n := fun h p n hp hn => by
    rw [← hcwd] at hp
    exact ha.grows.keep p n hp ((h.inside p hp).symm.trans hn)
  have hother : ∀ (st : Stage) (w : World) u, u ≠ t → (x.to t st w).stage u = x.stage u :=
    fun st w u hu => Parts.to_stage_ne _ _ _ hu
  obtain ⟨task, htask⟩ := hj.declared hs.mem
  cases hs with
  | mark ht hst hw =>
    refine ha.next hx hz hj hf ht hst (fun _ _ => rfl) ?_ (hgrows ?_)
    · rintro (h | h) he <;> exact absurd (h.symm.trans he) (by simp)
    · obtain ⟨task', task₁, fs₁, -, hpart, rfl⟩ := World.part_eq_some.mp hw
      cases hpart
      exact ha.grows
  | hash ht hst hdeps hw =>
    refine ha.next hx hz hj hf ht (by simp [hst]) (hother _ _) ?_
      (hgrows (ha.hash hx hz hj ht hst hdeps hw))
    rw [Parts.to_stage_self]
    rintro (h | h) <;> cases h
  | hit ht hst hw =>
    refine ha.next hx hz hj hf ht (by simp [hst]) (hother _ _) (fun _ => by simp [hst]) (hfiles ?_)
    obtain ⟨task', task₁, fs₁, htask', hpart, rfl⟩ := World.part_eq_some.mp hw
    have hat := hx.tasks t ht task htask
    rw [hst] at hat
    obtain ⟨-, st, hst'⟩ := hat
    obtain rfl := Option.some.inj (htask'.symm.trans hst')
    have ho : OutsideAll x.world.fs.cwd task.outputs := by
      rw [hcwd]
      exact (hj.taskOk ht htask).outside
    obtain ⟨content, r, -, -, -, -, rfl⟩ := lookupPart_hit hx.sound ho hpart
    exact filesOnly_restoreWrites ho r.outputs
  | miss ht hst hw =>
    refine ha.next hx hz hj hf ht (by simp [hst]) (hother _ _) (fun _ => by simp [hst]) (hgrows ?_)
    obtain ⟨task', task₁, fs₁, htask', hpart, rfl⟩ := World.part_eq_some.mp hw
    have hat := hx.tasks t ht task htask
    rw [hst] at hat
    obtain ⟨-, st, hst'⟩ := hat
    obtain rfl := Option.some.inj (htask'.symm.trans hst')
    obtain ⟨-, -, -, rfl⟩ | ⟨htrue, -⟩ := lookupPart_ok rfl hpart
    · exact ha.grows
    · cases htrue
  | command ht hst hw =>
    refine ha.next hx hz hj hf ht (by simp [hst]) (hother _ _) (fun _ => by simp [hst]) (hfiles ?_)
    obtain ⟨task', task₁, fs₁, htask', hpart, rfl⟩ := World.part_eq_some.mp hw
    have hat := hx.tasks t ht task htask
    rw [hst] at hat
    obtain ⟨st, hst'⟩ := hat.task
    obtain rfl := Option.some.inj (htask'.symm.trans hst')
    obtain ⟨hsys, -⟩ := commandPart_ok (Except.ok.inj hpart)
    have := (hj.writes t ht task htask x.world.fs hcwd).toFilesOnly
    rwa [show system j.sys task.cmd x.world.fs = (0, fs₁) from hsys] at this
  | record ht hst hw =>
    exact ha.next hx hz hj hf ht (by simp [hst]) (hother _ _) (fun _ => by simp [hst])
      (hgrows (ha.record hx hz hj ht hst hw))

/-! ## 5. Runs -/

abbrev PartRun (j : Job) : List TaskPtr → Parts → Prop :=
  Run (PartStep j.sys j.list j.order) (.init ⟨j.list, j.fs⟩)

theorem agree_run (hj : j.Ok) (hz : AllDone j z) {tr : List TaskPtr} (h : PartRun j tr x) :
    PartInv j x ∧ Toward j z x :=
  Run.preserve (P := fun x => PartInv j x ∧ Toward j z x)
    (fun _ _ _ hi hs => hi.2.step hi.1 hz hj hs) h ⟨partInv_init hj, agree_init hz⟩

/-- A run to the end leaves what another one left. -/
theorem AllDone.agree (hj : j.Ok) (hz : AllDone j z) {tr : List TaskPtr} (h : PartRun j tr x)
    (hdone : ∀ t ∈ j.order, x.stage t = .done) :
    Grows ∅ x.world.fs z.world.fs ∧ x.world.tasks = z.world.tasks := by
  obtain ⟨hx, ha⟩ := agree_run hj hz h
  refine ⟨ha.grows.mono ?_, List.ext_getElem? fun t => ?_⟩
  · rintro p ⟨t, ht, hst, -⟩
    exact absurd (.inr (hdone t ht)) hst
  · by_cases ht : t ∈ j.order
    · exact ha.tasks t ht (hdone t ht)
    · rw [hx.others t ht, hz.inv.others t ht]

/-- **All runs end alike.**  Where the hashes tell apart what one run to the end leaves, all of
them leave the same tasks and the same tree. -/
theorem parts_unique (hj : j.Ok) (hz : AllDone j z) {tr tr' : List TaskPtr} (hrun : PartRun j tr z)
    (h : PartRun j tr' x) (hdone : ∀ t ∈ j.order, x.stage t = .done) : x.world = z.world := by
  obtain ⟨hg, htasks⟩ := hz.agree hj h hdone
  obtain ⟨hx, ha⟩ := agree_run hj hz h
  have hcwd := hx.grows.cwd
  -- what has to be told apart here is what has to be told apart there
  have hdata : j.data x.world.fs ⊆ j.data z.world.fs := by
    rintro d ((rfl | ⟨p, hp⟩) | ⟨t, ht, task, htask, rfl⟩)
    · exact .inl (.inl rfl)
    · refine .inl (.inr ⟨p, ?_⟩)
      rw [hg.node_eq (Set.notMem_empty p) (by simp [hp]), hp]
    · refine .inr ⟨t, ht, task, htask, ?_⟩
      have hk := (hx.tasks t ht task htask).keyed (by simp [hdone t ht])
      exact (hk.grow hg fun _ _ => Set.notMem_empty _).2.1.symm
  have hxc : AllDone j x := ⟨hx, hdone, hz.free.mono hdata⟩
  obtain ⟨hg', -⟩ := hxc.agree hj hrun hz.done
  calc x.world = ⟨x.world.tasks, x.world.fs⟩ := rfl
    _ = ⟨z.world.tasks, z.world.fs⟩ := by rw [htasks, hg.antisymm hg']

end ReproVM
