/-
# How the parts end

In a run of the parts no part crashes that does not crash in the run to the end: what it reads has
the lengths that it has there.  And where the inputs lie outside `.reprovm`, a part does not fail
that went through there, so only a lookup can still end in two ways.
-/
import ReproVM.PartsAgree

namespace ReproVM

open Relation

variable {j : Job} {x z : Parts} {w : World} {t : TaskPtr} {task : Task} {fs fs' : FS}

/-! ## 1. One part -/

theorem World.part_intro {b : Bool} {task task' : Task}
    {f : Task → Except Fault (Bool × Task × FS)} (htask : w.tasks[t]? = some task)
    (hf : f task = .ok (b, task', fs)) : ∃ w', w.part t b f = some w' :=
  ⟨_, World.part_eq_some.mpr ⟨task, task', fs, htask, hf, rfl⟩⟩

/-- A part ends in one way. -/
theorem World.part_unique {outcome outcome' : Bool} {f : Task → Except Fault (Bool × Task × FS)}
    {w₁ w₂ : World} (h : w.part t outcome f = some w₁) (h' : w.part t outcome' f = some w₂) :
    outcome = outcome' := by
  obtain ⟨task, task₁, fs₁, htask, hf, -⟩ := World.part_eq_some.mp h
  obtain ⟨task', task₂, fs₂, htask', hf', -⟩ := World.part_eq_some.mp h'
  obtain rfl := Option.some.inj (htask.symm.trans htask')
  exact congrArg Prod.fst (Except.ok.inj (hf.symm.trans hf'))

theorem hashPart_none (hnone : task.taskHash = none) (h : storeInputs fs task.inputs = (none, fs')) :
    hashPart fs task = .ok (false, { task with status := .failed }, fs') := by
  have hens : ensureTaskHash fs task = .ok (false, task, fs') := by
    rw [ensureTaskHash, hnone]
    simp only [computeTaskHash, h]
  rw [hashPart, hens]
  rfl

theorem hashPart_some (hi : StoreOk fs) (hnone : task.taskHash = none) {hs : List Bytes}
    (h : storeInputs fs task.inputs = (some hs, fs')) (hlen : (textAt fs' task).length < 4096) :
    hashPart fs task = .ok (true, hashedTask fs' task, fs') := by
  rw [hashPart, ensureTaskHash_stored hi hnone h hlen]
  rfl

/-! ## 2. No part crashes -/

/-- Hashing ends, and it fails only where an input cannot be read. -/
theorem Toward.hash_ends (ha : Toward j z x) (hx : PartInv j x) (hz : AllDone j z) (hj : j.Ok)
    (ht : t ∈ j.order) (htask : j.list[t]? = some task) (hst : x.stage t = .todo)
    (hdeps : ∀ u, TransGen (DependsOn j.list) t u → x.stage u = .done) :
    ∃ ok w, x.world.part t ok (hashPart x.world.fs) = some w ∧
      ((∀ s ∈ task.inputs, x.world.fs.read s ≠ none) → ok = true) := by
  have hat := hx.tasks t ht task htask
  rw [hst] at hat
  obtain ⟨st, hst'⟩ := hat
  have hnone : ({ task with status := st } : Task).taskHash = none :=
    (hj.fresh task (List.mem_of_getElem? htask)).taskHash
  have hg := ha.inputs_stored hx hz hj ht htask hdeps
  rcases hrun : storeInputs x.world.fs task.inputs with ⟨_ | hs, fs₁⟩ <;> rw [hrun] at hg
  · obtain ⟨w, hw⟩ := World.part_intro hst' (hashPart_none hnone hrun)
    refine ⟨false, w, hw, fun hall => ?_⟩
    obtain ⟨hs, fs₂, hrun'⟩ := storeInputs_total hx.sound.store hall
    rw [hrun] at hrun'
    cases hrun'
  · obtain ⟨-, hhashed⟩ := storeInputs_some hx.sound.store hrun
    have hcwd : fs₁.cwd = j.fs.cwd := hg.cwd.symm.trans hz.inv.grows.cwd
    have htext : textAt z.world.fs task = textAt fs₁ task := textAt_congr rfl fun s hs =>
      (hg.hashed (hcwd ▸ hj.inputs_written ht htask hdeps s hs) (hhashed s hs)).2
    have hlen : (textAt fs₁ { task with status := st }).length < 4096 := by
      have := (hz.at ht htask).1.length
      rwa [htext] at this
    obtain ⟨w, hw⟩ := World.part_intro hst' (hashPart_some hx.sound.store hnone hrun hlen)
    exact ⟨true, w, hw, fun _ => rfl⟩

/-- The record of a task that is not done is the one that the run to the end finds. -/
theorem Toward.record_reads (ha : Toward j z x) (hx : PartInv j x) (hz : AllDone j z) (hj : j.Ok)
    (ht : t ∈ j.order) (htask : j.list[t]? = some task) (hst : x.stage t = .hashed) {content : Bytes}
    (hread : x.world.fs.read (metaPath (keyAt x.world.fs task)) = some content) :
    ∃ r, readRecord content = .ok r := by
  have hkey := ha.sameKey hx hj ht htask (by simp [hst])
  have hk := isHash_keyAt x.world.fs task
  rcases (hz.at ht htask).2 with ⟨content', r, hs⟩ | hs
  · have hread' := hs.read
    rw [hkey.key, ha.grows.read_record hk hread] at hread'
    exact ⟨r, Option.some.inj hread' ▸ hs.record⟩
  · -- it was not there at the start, and no other task has the key
    have hnone := hs.unrecorded
    rw [Job.Unrecorded, hkey.key] at hnone
    have hnow := FS.node_ne_none_of_read hread
    rw [resolve_metaPath hk, hx.grows.cwd] at hnow
    rcases hx.records (keyAt x.world.fs task) with hsame | ⟨u, hu, task', htask', hstu, -, he⟩
    · exact absurd (hsame.trans hnone) hnow
    · have hkey' := ha.sameKey hx hj hu htask' (by simp [hstu])
      obtain rfl := hz.key_inj hj ht htask hu htask' (by rw [hkey'.key, ← he, hkey.key])
      rw [hst] at hstu
      cases hstu

theorem Toward.lookup_ends (ha : Toward j z x) (hx : PartInv j x) (hz : AllDone j z) (hj : j.Ok)
    (ht : t ∈ j.order) (hst : x.stage t = .hashed) :
    ∃ hit w, x.world.part t hit (lookupPart x.world.fs) = some w := by
  obtain ⟨task, htask⟩ := hj.declared ht
  have hat := hx.tasks t ht task htask
  rw [hst] at hat
  obtain ⟨-, st, hst'⟩ := hat
  obtain ⟨hit, task', fs', hf⟩ : ∃ hit task' fs',
      lookupPart x.world.fs { hashedTask x.world.fs task with status := st } =
        .ok (hit, task', fs') := by
    rw [lookupPart, tryLoadTaskRecord_eq _ _ rfl]
    cases hread : x.world.fs.read (metaPath (keyAt x.world.fs task)) with
    | none => exact ⟨_, _, _, rfl⟩
    | some content =>
      obtain ⟨r, hr⟩ := ha.record_reads hx hz hj ht htask hst hread
      dsimp only
      rw [hr]
      exact ⟨_, _, _, rfl⟩
  obtain ⟨w, hw⟩ := World.part_intro hst' hf
  exact ⟨hit, w, hw⟩

theorem PartInv.command_ends (hx : PartInv j x) (hj : j.Ok) (ht : t ∈ j.order)
    (hst : x.stage t = .missed) : ∃ ok w,
      x.world.part t ok (fun task => .ok (commandPart j.sys x.world.fs task)) = some w := by
  obtain ⟨task, htask⟩ := hj.declared ht
  have hat := hx.tasks t ht task htask
  rw [hst] at hat
  obtain ⟨st, hst'⟩ := hat.task
  obtain ⟨w, hw⟩ := World.part_intro
    (f := fun task => .ok (commandPart j.sys x.world.fs task)) hst' rfl
  exact ⟨_, w, hw⟩

/-- The record is written. -/
theorem Toward.record_ends (ha : Toward j z x) (hx : PartInv j x) (hz : AllDone j z) (hj : j.Ok)
    (ht : t ∈ j.order) (hst : x.stage t = .ran) :
    ∃ w, x.world.part t true (recordPart x.world.fs) = some w := by
  obtain ⟨task, htask⟩ := hj.declared ht
  have hat := hx.tasks t ht task htask
  rw [hst] at hat
  obtain ⟨st, hst'⟩ := hat.1.task
  have hcwd := hx.grows.cwd
  have ho : OutsideAll x.world.fs.cwd task.outputs := by
    rw [hcwd]
    exact (hj.taskOk ht htask).outside
  have hk := isHash_keyAt x.world.fs task
  obtain ⟨hdone, -, hout⟩ := ha.ran hx hz hj ht htask hst
  have hlen : (resultText x.world.fs task).length < 4096 := by
    rw [← resultText_congr hout]
    exact hdone.length
  have hw : x.world.fs.Writable (metaPath (keyAt x.world.fs task)) := by
    refine writable_metaPath hk ?_ ?_
    · rw [hcwd]
      exact hx.grows.keep _ _ (inside_cacheDir _) hj.cacheDir
    · rw [hcwd, hat.1.record]
      simp
  have hf := @recordPart_eq _ { hashedTask x.world.fs task with status := st } hx.sound.store ho _ hk rfl
  exact World.part_intro hst' (hf.trans ((if_pos hlen).trans (if_pos hw)))

/-! ## 3. No part fails -/

/-- The inputs lie outside `.reprovm`. -/
def Job.InputsOutside (j : Job) : Prop :=
  ∀ t ∈ j.order, ∀ task, j.list[t]? = some task → OutsideAll j.fs.cwd task.inputs

theorem Toward.hash_ok (ha : Toward j z x) (hx : PartInv j x) (hz : AllDone j z) (hj : j.Ok)
    (hin : j.InputsOutside) (ht : t ∈ j.order) (hst : x.stage t = .todo)
    (hdeps : ∀ u, TransGen (DependsOn j.list) t u → x.stage u = .done) :
    ∃ w, x.world.part t true (hashPart x.world.fs) = some w := by
  obtain ⟨task, htask⟩ := hj.declared ht
  obtain ⟨ok, w, hw, hok⟩ := ha.hash_ends hx hz hj ht htask hst hdeps
  obtain rfl := hok fun s hs => by
    obtain ⟨data, hr, -⟩ := (hz.at ht htask).1.inputs s hs
    have hnode := ha.grows.outside (resolve j.fs.cwd s)
      (by rw [hx.grows.cwd]; exact hin t ht task htask s hs) (hj.inputs_written ht htask hdeps s hs)
    rw [← hx.grows.cwd] at hnode
    rw [← FS.read_congr ha.grows.cwd hnode, hr]
    simp
  exact ⟨w, hw⟩

/-- A command that is run in both runs sees the same. -/
theorem Toward.command_ok (ha : Toward j z x) (hx : PartInv j x) (hz : AllDone j z) (hj : j.Ok)
    (ht : t ∈ j.order) (hst : x.stage t = .missed) : ∃ w,
      x.world.part t true (fun task => .ok (commandPart j.sys x.world.fs task)) = some w := by
  obtain ⟨task, htask⟩ := hj.declared ht
  have hat := hx.tasks t ht task htask
  rw [hst] at hat
  have hkey := ha.sameKey hx hj ht htask (by simp [hst])
  have hdone := hz.succeeded hj ht htask (by
    rw [Job.Unrecorded, hkey.key]
    exact hat.unrecorded)
  obtain ⟨F₁, F₂, hran⟩ := hdone.ran
  have hsees : SeesSame task F₁ x.world.fs := by
    refine ⟨hx.grows.cwd.trans hran.cwd.symm, fun s hs => ?_, fun p hp => ?_, fun p hp => ?_⟩
    · rw [hran.inputs s hs, hkey.inputs s hs]
    · rw [hran.cwd] at hp
      rw [hran.before p hp, hx.unwritten hj ht htask (by simp [hst]) p hp]
    · rw [hran.cwd] at hp
      rw [hran.dir p hp, hx.grows.dir p hp]
  have hzero := (hj.deterministic t ht task htask F₁ x.world.fs hran.cwd hsees).1
  rw [hran.run] at hzero
  obtain ⟨st, hst'⟩ := hat.task
  exact World.part_intro (f := fun task => .ok (commandPart j.sys x.world.fs task)) hst'
    (congrArg Except.ok (if_pos hzero))

end ReproVM
