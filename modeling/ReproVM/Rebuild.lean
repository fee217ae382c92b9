/-
# What a run delivers

An output is up to date when it holds what its command gives for the inputs as they are.  A run
that ends well leaves every output of its tasks up to date, whatever the history did before it, if
the keys tell the outputs apart: two calls with one command and the same contents of inputs, up to
their order, give the same.  What is up to date follows from the inputs that no task writes, so
the run delivers what a run from an empty store delivers.
-/
import ReproVM.History
import ReproVM.WarmRun

namespace ReproVM

open Bytes (ascii)
open Lib (Run PostOrder)
open Relation

variable {F : Command} {tr : List Event} {fs fs₁ fs' : FS} {task : Task}

/-! ## 1. The passes of the loop as events -/

/-- What the loop does, as far as a history tells it. -/
def loopEvents (sys : TaskPtr → System) : List TaskPtr → World → List Event
  | [], _ => [.other]
  | t :: order, w =>
    match w.tasks[t]? with
    | none => []
    | some task =>
      match ensureTaskHash w.fs task with
      | .error _ => []
      | .ok (false, _, fs₁) => [.hashFailed task fs₁]
      | .ok (true, task₁, fs₁) =>
        match executeTask (sys t) fs₁ task₁ with
        | .error _ => []
        | .ok e =>
          .call ⟨task, fs₁, e⟩ ::
            if e.ok then loopEvents sys order ⟨w.tasks.set t e.task, e.fs⟩ else []

/-- The first pass of a loop that ends well. -/
theorem runTasks_pass {sys : TaskPtr → System} {t : TaskPtr} {order : List TaskPtr} {w : World}
    {run : MainRun} (h : runTasks sys (t :: order) w = .ok run) (hok : run.ok = true) :
    ∃ task task₁ fs₁ e run', w.tasks[t]? = some task ∧
      ensureTaskHash w.fs task = .ok (true, task₁, fs₁) ∧
      executeTask (sys t) fs₁ task₁ = .ok e ∧ e.ok = true ∧
      runTasks sys order ⟨w.tasks.set t e.task, e.fs⟩ = .ok run' ∧ run'.ok = true ∧
      run.world = run'.world ∧
      loopEvents sys (t :: order) w =
        .call ⟨task, fs₁, e⟩ :: loopEvents sys order ⟨w.tasks.set t e.task, e.fs⟩ := by
  rw [runTasks] at h
  cases htask : w.tasks[t]? with
  | none => simp [htask] at h
  | some task =>
    simp only [htask] at h
    cases hm : mainTask (sys t) w.fs task with
    | error e => simp [hm] at h
    | ok e =>
      simp only [hm] at h
      cases heok : e.ok with
      | false =>
        simp only [heok, Bool.false_eq_true, if_false] at h
        cases h
        cases hok
      | true =>
        simp only [heok, if_true] at h
        cases hr : runTasks sys order ⟨w.tasks.set t e.task, e.fs⟩ with
        | error e => simp [hr] at h
        | ok run' =>
          simp only [hr] at h
          cases h
          unfold mainTask at hm
          rcases hens : ensureTaskHash w.fs task with _ | ⟨ok, task₁, fs₁⟩ <;> rw [hens] at hm
          · cases hm
          cases ok with
          | false =>
            cases hm
            cases heok
          | true =>
            replace hm : executeTask (sys t) fs₁ task₁ = .ok e := hm
            refine ⟨task, task₁, fs₁, e, run', rfl, hens, hm, heok, hr, hok, rfl, ?_⟩
            simp only [loopEvents, htask, hens, hm, heok, if_true]

/-! ## 2. Up to date -/

/-- The inputs are there, and each output holds what the command gives for them. -/
structure UpToDate (F : Command) (fs : FS) (task : Task) : Prop where
  inputs : ∀ s ∈ task.inputs, fs.read s ≠ none
  outputs : ∀ out ∈ task.outputs,
    fs.read out = some (F (task.cmd.getD []) (inputMap fs task) out)

/-- A key tells what is to be restored: a call with the command and the contents of inputs of
another, up to their order, gives what the other gives. -/
def KeysTell (F : Command) (tr : List Event) : Prop :=
  ∀ c c', Event.call c ∈ tr → Event.call c' ∈ tr → c.status = .success → c.cmd = c'.cmd →
    c.contents.Perm c'.contents → ∀ out ∈ c'.task.outputs,
      out ∈ c.task.outputs ∧ F c.cmd c.inputs out = F c'.cmd c'.inputs out

theorem KeysTell.mono {tr' : List Event} (h : KeysTell F tr') (hsub : tr ⊆ tr') : KeysTell F tr :=
  fun c c' hc hc' => h c c' (hsub hc) (hsub hc')

theorem inputMap_congr (h : ∀ s ∈ task.inputs, fs'.read s = fs.read s) :
    inputMap fs' task = inputMap fs task := by
  funext s
  unfold inputMap
  split
  · rename_i hs
    exact h s hs
  · rfl

/-- What other tasks write leaves it up to date. -/
theorem UpToDate.grows {ps : Set Path} (h : UpToDate F fs task) (hg : Grows ps fs fs')
    (hin : ∀ s ∈ task.inputs, resolve fs.cwd s ∉ ps)
    (hout : ∀ out ∈ task.outputs, resolve fs.cwd out ∉ ps) : UpToDate F fs' task := by
  have hread : ∀ s ∈ task.inputs, fs'.read s = fs.read s := by
    intro s hs
    obtain ⟨d, hd⟩ := Option.ne_none_iff_exists'.mp (h.inputs s hs)
    rw [hd, hg.read_eq (hin s hs) hd]
  refine ⟨fun s hs => ?_, fun out ho => ?_⟩
  · rw [hread s hs]
    exact h.inputs s hs
  · rw [inputMap_congr hread]
    exact hg.read_eq (hout out ho) (h.outputs out ho)

/-! ## 3. One pass -/

/-- What a pass that ends well writes, and that its task is up to date. -/
theorem TreeInv.pass (hi : TreeInv F tr fs) (hfresh : FreshTask task) (hnl : 10 ∉ task.cmd.getD [])
    (hh : HashedIn fs task fs₁) (hfit : OutputsFit fs₁.cwd task) {sys : System}
    (hsys : Computes F sys task fs₁) (hwrites : WritesOutputs task fs₁ (system sys task.cmd fs₁).2)
    (hown : ∀ s ∈ task.inputs, resolve fs₁.cwd s ∉ task.places fs₁.cwd)
    (hwr : ∀ out ∈ task.outputs, fs₁.Writable out) {e : Exec} (hexec : ExecCall sys fs₁ task e)
    (hok : e.ok = true) (hcf : CollisionFree (involved (tr ++ [Event.call ⟨task, fs₁, e⟩])))
    (hkeys : KeysTell F (tr ++ [Event.call ⟨task, fs₁, e⟩])) :
    Grows (task.places fs₁.cwd) fs₁ e.fs ∧ UpToDate F e.fs task := by
  have hmem : Event.call ⟨task, fs₁, e⟩ ∈ tr ++ [Event.call ⟨task, fs₁, e⟩] := by simp
  have hearlier : ∀ c, Event.call c ∈ tr → Event.call c ∈ tr ++ [Event.call ⟨task, fs₁, e⟩] :=
    fun c hc => List.mem_append_left _ hc
  have hdata : ∀ c, Event.call c ∈ tr ++ [Event.call ⟨task, fs₁, e⟩] →
      c.data ⊆ involved (tr ++ [Event.call ⟨task, fs₁, e⟩]) := fun c hc =>
    data_subset_involved (e := .call c) hc
  have hcallok := callOk_of_hashed hfresh hnl hh hfit e
  have hstore : StoreInv (involved (tr ++ [Event.call ⟨task, fs₁, e⟩])) fs₁ :=
    hh.inv _ (hi.store.mono (involved_mono (List.subset_append_left ..))) fun p hp d hd =>
      hdata _ hmem (.inl ⟨p, hp, hd⟩)
  have hread : ∀ {fs'}, Grows (task.places fs₁.cwd) fs₁ fs' → ∀ s ∈ task.inputs,
      fs'.read s = fs₁.read s ∧ fs₁.read s ≠ none := by
    intro fs' hg s hs
    obtain ⟨d, hd, -⟩ := hh.inputs s hs
    rw [hd, hg.read_eq (hown s hs) hd]
    simp
  have hdone : ∀ {fs'}, Grows (task.places fs₁.cwd) fs₁ fs' →
      (∀ out ∈ task.outputs,
        fs'.read out = some (F (task.cmd.getD []) (inputMap fs₁ task) out)) →
      UpToDate F fs' task := by
    intro fs' hg hout
    refine ⟨fun s hs => ?_, fun out ho => ?_⟩
    · rw [(hread hg s hs).1]
      exact (hread hg s hs).2
    · rw [inputMap_congr fun s hs => (hread hg s hs).1]
      exact hout out ho
  cases hexec with
  | @skipped content r hrd hr =>
    -- the record is of an earlier call, with the same command and contents
    obtain ⟨c₀, hc₀, hw, hout⟩ := hi.hit hh.stores (isHash_keyAt fs₁ task) hrd hr
    obtain ⟨hcmd, hperm⟩ := eq_of_keyAt_eq hcf (hi.calls c₀ hc₀) hcallok
      (hdata c₀ (hearlier c₀ hc₀)) (hdata _ hmem) hw.hash
    have hagree := hkeys c₀ _ (hearlier c₀ hc₀) hmem hw.status hcmd hperm
    have hg := (writesOutputs_restoreWrites hfit.1 r.outputs).grows
    rw [hi.restoreAll hh hfit.1 hrd hr]
    refine ⟨hg, hdone hg fun out ho => ?_⟩
    obtain ⟨ho₀, hval⟩ := hagree out ho
    rw [hw.restored hcf (hdata c₀ (hearlier c₀ hc₀)) hstore hout ho ho₀ (hwr out ho), hval]
    rfl
  | commandFailed => cases hok
  | recordFailed => cases hok
  | @success fs₂ hmiss hrun hlen =>
    have hvals := hsys.outputs
    rw [hrun] at hwrites hvals
    obtain ⟨hi₂, ho₂, hmiss₂⟩ := hwrites.unrecorded hh.ok hfit.1 hmiss
    have hg := hwrites.grows.trans (recorded_grows hi₂ ho₂ hmiss₂ _)
    refine ⟨hg, hdone hg fun out ho => ?_⟩
    exact (read_recorded_output hi₂ ho₂ hmiss₂ out ho).trans (hvals rfl out ho)

/-! ## 4. The loop -/

section Loop

variable {list : TaskList} {order done : List TaskPtr} {cwd : Path} {w : World} {t : TaskPtr}
  {sys : TaskPtr → System}

/-- The commands compute `F`, and write only the declared outputs. -/
def CommandsCompute (F : Command) (sys : TaskPtr → System) (list : TaskList)
    (order : List TaskPtr) (cwd : Path) : Prop :=
  CommandsWrite sys list order cwd ∧ ∀ t ∈ order, ∀ task, list[t]? = some task →
    ∀ fs : FS, fs.cwd = cwd → Computes F (sys t) task fs

/-- The places of all outputs. -/
def allPlaces (list : TaskList) (order : List TaskPtr) (cwd : Path) : Set Path :=
  {p | ∃ t ∈ order, ∃ task, list[t]? = some task ∧ p ∈ task.places cwd}

/-- Between two passes: the tasks that are done are up to date, and the others are as they were
parsed. -/
structure Built (F : Command) (list : TaskList) (order : List TaskPtr) (fs : FS) (tr : List Event)
    (done rest : List TaskPtr) (w : World) : Prop where
  session : SessionInv F tr ⟨w.fs, .loop w.tasks rest⟩
  grows : Grows (allPlaces list order fs.cwd) fs w.fs
  fresh : ∀ t, t ∉ done → w.tasks[t]? = list[t]?
  upToDate : ∀ t ∈ done, ∀ task, list[t]? = some task → UpToDate F w.fs task

/-- **One pass.** -/
theorem Built.pass {task₁ : Task} {e : Exec}
    (hb : Built F list (done ++ t :: order) fs tr done (t :: order) w)
    (hA : TaskArray list (done ++ t :: order) fs.cwd)
    (hsys : CommandsCompute F sys list (done ++ t :: order) fs.cwd)
    (hwr : ∀ t' ∈ done ++ t :: order, ∀ task, list[t']? = some task → ∀ out ∈ task.outputs,
      fs.Writable out)
    (htask : w.tasks[t]? = some task) (hhash : ensureTaskHash w.fs task = .ok (true, task₁, fs₁))
    (hexec : executeTask (sys t) fs₁ task₁ = .ok e) (hok : e.ok = true)
    (hcf : CollisionFree (involved (tr ++ [Event.call ⟨task, fs₁, e⟩])))
    (hkeys : KeysTell F (tr ++ [Event.call ⟨task, fs₁, e⟩])) :
    Built F list ((done ++ [t]) ++ order) fs (tr ++ [Event.call ⟨task, fs₁, e⟩]) (done ++ [t]) order
      ⟨w.tasks.set t e.task, e.fs⟩ := by
  have happ : done ++ t :: order = (done ++ [t]) ++ order := by simp
  have hmem : t ∈ done ++ t :: order := by simp
  have ht := hA.notMem_done
  have hlist : list[t]? = some task := by rw [← hb.fresh t ht, htask]
  obtain ⟨hfresh, hnl⟩ := hb.session.phase.2 t List.mem_cons_self task htask
  obtain ⟨-, hh, rfl⟩ | ⟨h, -⟩ := ensureTaskHash_cases hb.session.tree.store.ok hfresh.taskHash hhash
  swap
  · cases h
  have hcwd₁ : fs₁.cwd = fs.cwd := hh.stores.cwd.trans hb.grows.cwd
  have hfit : OutputsFit fs₁.cwd task := by
    rw [hcwd₁]
    exact ⟨hA.outside t hmem task hlist, hA.noSpace t hmem task hlist⟩
  have hcomp := hsys.2 t hmem task hlist fs₁ hcwd₁
  obtain ⟨-, hcall, htree⟩ := hb.session.call htask hhash hfit hcomp hexec
  have hg₁ := hb.grows.trans (hh.stores.grows (allPlaces list (done ++ t :: order) fs.cwd))
  have hpass := hb.session.tree.pass hfresh hnl hh hfit hcomp
    (hsys.1 t hmem task hlist fs₁ hcwd₁)
    (by rw [hcwd₁]; exact hA.own t hmem task hlist)
    (fun out ho => (hg₁.writable_iff (hA.outside t hmem task hlist out ho)).mpr
      (hwr t hmem task hlist out ho)) hcall hok hcf hkeys
  obtain ⟨hg, hup⟩ := hpass
  rw [hcwd₁] at hg
  have hgw : Grows (task.places fs.cwd) w.fs e.fs := (hh.stores.grows _).trans hg
  refine ⟨⟨htree, ?_⟩, ?_, fun u hu => ?_, fun u hu v hv => ?_⟩
  · have := hb.session.phase.next e.ok e.task
    rwa [if_pos hok] at this
  · rw [← happ]
    exact hg₁.trans (hg.mono fun p hp => ⟨t, hmem, task, hlist, hp⟩)
  · rw [List.mem_append, List.mem_singleton, not_or] at hu
    rw [List.getElem?_set_ne (Ne.symm hu.2), hb.fresh u hu.1]
  · rcases List.mem_append.mp hu with hu | hu
    · have hne : t ≠ u := fun h => ht (h ▸ hu)
      refine (hb.upToDate u hu v hv).grows hgw (fun s hs => ?_) fun out ho hp => ?_
      · rw [hb.grows.cwd]
        exact hA.not_reads_later hu hlist hv s hs
      · rw [hb.grows.cwd] at hp
        exact hne (hA.unique t hmem u (by simp [hu]) task v hlist hv _ hp ⟨out, ho, rfl⟩)
    · obtain rfl := List.mem_singleton.mp hu
      obtain rfl := Option.some.inj (hlist.symm.trans hv)
      exact hup

/-- **The loop.** -/
theorem Built.loop {run : MainRun} (hb : Built F list (done ++ order) fs tr done order w)
    (hA : TaskArray list (done ++ order) fs.cwd)
    (hsys : CommandsCompute F sys list (done ++ order) fs.cwd)
    (hwr : ∀ t ∈ done ++ order, ∀ task, list[t]? = some task → ∀ out ∈ task.outputs,
      fs.Writable out)
    (hcf : CollisionFree (involved (tr ++ loopEvents sys order w)))
    (hkeys : KeysTell F (tr ++ loopEvents sys order w))
    (hrun : runTasks sys order w = .ok run) (hok : run.ok = true) :
    Grows (allPlaces list (done ++ order) fs.cwd) fs run.world.fs ∧
      ∀ t ∈ done ++ order, ∀ task, list[t]? = some task → UpToDate F run.world.fs task := by
  induction order generalizing done w tr run with
  | nil =>
    obtain rfl := Except.ok.inj hrun
    exact ⟨hb.grows, fun t ht => hb.upToDate t (by simpa using ht)⟩
  | cons t order ih =>
    obtain ⟨task, task₁, fs₁, e, run', htask, hhash, hexec, heok, hrest, hok', hworld, hev⟩ :=
      runTasks_pass hrun hok
    have htr : tr ++ loopEvents sys (t :: order) w = (tr ++ [Event.call ⟨task, fs₁, e⟩]) ++
        loopEvents sys order ⟨w.tasks.set t e.task, e.fs⟩ := by
      rw [hev, List.append_assoc, List.singleton_append]
    rw [htr] at hcf hkeys
    have hpass := hb.pass hA hsys hwr htask hhash hexec heok
      (hcf.mono (involved_mono (List.subset_append_left ..)))
      (hkeys.mono (List.subset_append_left ..))
    have happ : done ++ t :: order = (done ++ [t]) ++ order := by simp
    rw [happ] at hA hsys hwr ⊢
    rw [hworld]
    exact ih hpass hA hsys hwr hcf hkeys hrest hok'

end Loop

/-! ## 5. A run at the end of a history -/

/-- A history, and then a run of a manifest that ends well. -/
structure BuildRun (F : Command) (manifest : Bytes) (sys : TaskPtr → System) (tr : List Event)
    (fs : FS) (order : List TaskPtr) (run : MainRun) : Prop where
  history : ∃ fs₀, NoStore fs₀ ∧
    Run (SessionStep F) ⟨(casInit fs₀ (ascii ".")).2, .idle⟩ tr ⟨fs, .idle⟩
  plan : ∃ moves fuel targets, plan moves fuel manifest targets = .ok (.sorted order)
  array : TaskArray (parseManifest manifest) order fs.cwd
  commands : CommandsCompute F sys (parseManifest manifest) order fs.cwd
  writable : ∀ t ∈ order, ∀ task, (parseManifest manifest)[t]? = some task →
    ∀ out ∈ task.outputs, fs.Writable out
  runs : runTasks sys order ⟨parseManifest manifest, (casInit fs (ascii ".")).2⟩ = .ok run
  ok : run.ok = true
  collisionFree : CollisionFree (involved
    (tr ++ loopEvents sys order ⟨parseManifest manifest, (casInit fs (ascii ".")).2⟩))
  keys : KeysTell F
    (tr ++ loopEvents sys order ⟨parseManifest manifest, (casInit fs (ascii ".")).2⟩)

namespace BuildRun

variable {manifest : Bytes} {sys sys' : TaskPtr → System} {tr' : List Event}
  {order order' : List TaskPtr} {run run' : MainRun}

/-- The start of a run is one more event. -/
theorem built (h : BuildRun F manifest sys tr fs order run) :
    Grows (allPlaces (parseManifest manifest) order fs.cwd) fs run.world.fs ∧
      ∀ t ∈ order, ∀ task, (parseManifest manifest)[t]? = some task →
        UpToDate F run.world.fs task := by
  obtain ⟨fs₀, hempty, hist⟩ := h.history
  obtain ⟨moves, fuel, targets, hplan⟩ := h.plan
  have hi := sessionInv hempty hist
  have hsame : (casInit fs (ascii ".")).2 = fs := by rw [casInit_again hi.tree.store hi.tree.cache]
  have hstart := hi.step (.start hplan)
  have hruns := h.runs
  have hcf := h.collisionFree
  have hkeys := h.keys
  rw [hsame] at hstart hruns hcf hkeys
  -- the start itself hashes nothing
  have hsub : involved ((tr ++ [Event.other]) ++
      loopEvents sys order ⟨parseManifest manifest, fs⟩) ⊆
      involved (tr ++ loopEvents sys order ⟨parseManifest manifest, fs⟩) := by
    rintro d ⟨e, he, hd⟩
    simp only [List.append_assoc, List.singleton_append, List.mem_append, List.mem_cons] at he
    rcases he with he | rfl | he
    · exact ⟨e, List.mem_append_left _ he, hd⟩
    · exact absurd hd (Set.notMem_empty d)
    · exact ⟨e, List.mem_append_right _ he, hd⟩
  have hcalls : ∀ c, Event.call c ∈ (tr ++ [Event.other]) ++
        loopEvents sys order ⟨parseManifest manifest, fs⟩ →
      Event.call c ∈ tr ++ loopEvents sys order ⟨parseManifest manifest, fs⟩ := by
    intro c hc
    simpa using hc
  have hb : Built F (parseManifest manifest) ([] ++ order) fs (tr ++ [Event.other]) [] order
      ⟨parseManifest manifest, fs⟩ :=
    ⟨hstart, .refl .., fun _ _ => rfl, by simp⟩
  exact hb.loop h.array h.commands h.writable (hcf.mono hsub)
    (fun c c' hc hc' => hkeys c c' (hcalls c hc) (hcalls c' hc')) hruns h.ok

/-- An output is a file after the run. -/
theorem node_output (h : BuildRun F manifest sys tr fs order run) {t : TaskPtr} (ht : t ∈ order)
    (htask : (parseManifest manifest)[t]? = some task) {out : Bytes} (ho : out ∈ task.outputs) :
    run.world.fs.node (resolve fs.cwd out) = (run.world.fs.read out).map .file := by
  obtain ⟨hg, hup⟩ := h.built
  have hw := (hg.writable_iff (h.array.outside t ht task htask out ho)).mpr
    (h.writable t ht task htask out ho)
  have hread := (hup t ht task htask).outputs out ho
  rw [hread, ← hg.cwd, FS.node_of_read hw hread, Option.map_some]

/-- A place that no task of the run writes. -/
theorem node_source (h : BuildRun F manifest sys tr fs order run) {p : Path}
    (hp : p ∉ allPlaces (parseManifest manifest) order fs.cwd) (hin : ¬ Inside fs.cwd p) :
    run.world.fs.node p = fs.node p :=
  h.built.1.outside p hin hp

/-- Where two runs read the inputs of a task the same, they leave its outputs the same. -/
theorem outputs_eq (h : BuildRun F manifest sys tr fs order run)
    (h' : BuildRun F manifest sys' tr' fs' order' run') {t : TaskPtr} (ht : t ∈ order)
    (ht' : t ∈ order') (htask : (parseManifest manifest)[t]? = some task)
    (hin : ∀ s ∈ task.inputs, run'.world.fs.read s = run.world.fs.read s) :
    ∀ out ∈ task.outputs, run'.world.fs.read out = run.world.fs.read out := by
  intro out ho
  rw [(h.built.2 t ht task htask).outputs out ho, (h'.built.2 t ht' task htask).outputs out ho,
    inputMap_congr hin]

end BuildRun

def copySystem : System := fun cmd fs => makeSystem ((fs.read (ascii "i")).getD []) cmd fs

def copyCommand : Command := fun _ m _ => (m (ascii "i")).getD []

theorem inputMap_make (fs : FS) : inputMap fs makeTask (ascii "i") = fs.read (ascii "i") :=
  if_pos (List.mem_singleton_self _)

theorem copy_computes : CommandsCompute copyCommand (fun _ => copySystem) [makeTask] [0]
    [ascii "w"] := by
  have hwrites : CommandsWrite (fun _ => copySystem) [makeTask] [0] [ascii "w"] :=
    fun t ht task htask fs hcwd =>
      makeSystem_writes ((fs.read (ascii "i")).getD []) t ht task htask fs hcwd
  refine ⟨hwrites, fun t ht task htask fs hcwd => ?_⟩
  have hw := hwrites t ht task htask fs hcwd
  obtain rfl := List.mem_singleton.mp ht
  obtain rfl : makeTask = task := Option.some.inj htask
  have hplace : resolve fs.cwd (ascii "o") = fs.cwd ++ [ascii "o"] := resolve_o fs.cwd
  have hsys : system copySystem makeTask.cmd fs =
      makeSystem ((fs.read (ascii "i")).getD []) (ascii "make") fs := rfl
  rw [hsys] at hw
  refine ⟨?_, fun hret out hout => ?_⟩
  · rw [hsys]
    unfold makeSystem at hw ⊢
    split
    · rename_i hwo
      rw [if_pos hwo] at hw
      refine hw.editOutside ?_
      have hparent := hwo.parent
      rwa [hplace, List.dropLast_concat] at hparent
    · exact .refl fs
  · obtain rfl := List.mem_singleton.mp hout
    rw [hsys] at hret ⊢
    unfold makeSystem at hret ⊢
    split at hret
    · rename_i hwo
      rw [if_pos hwo]
      exact (FS.read_set_self hwo.name _).trans (by rw [copyCommand, inputMap_make])
    · cases hret

def copyText : Bytes := taskText makeTask [blobHash (ascii "x")]

/-- All that is hashed. -/
def copyData : Set Bytes := {ascii "x", copyText}

theorem copyData_collisionFree : CollisionFree copyData := by
  have hsub : [ascii "x", copyText].Sublist [[], ascii "x", makeRecordText (ascii "x"), copyText] :=
    .cons _ (.cons_cons _ (.cons _ (.cons_cons _ .slnil)))
  have h : ([ascii "x", copyText].map sha256).Nodup := makeTexts_nodup.sublist (hsub.map sha256)
  intro a ha b hb hab
  simp only [copyData, Set.mem_insert_iff, Set.mem_singleton_iff] at ha hb
  exact List.inj_on_of_nodup_map h (by simpa using ha) (by simpa using hb) hab

/-- The task is hashed. -/
theorem copy_hashed (hi : StoreOk fs) (hr : fs.read (ascii "i") = some (ascii "x")) :
    ∃ fs₁, ensureTaskHash fs makeTask = .ok (true, hashedTask fs₁ makeTask, fs₁) ∧
      HashedIn fs makeTask fs₁ ∧ textAt fs₁ makeTask = copyText ∧
      fs₁.read (ascii "i") = some (ascii "x") := by
  have hstore := storeInputs_single hi hr
  have hstores := (storeInputs_stores hi [ascii "i"]).1
  rw [hstore] at hstores
  have hr₁ : (fs.addObject (blobHash (ascii "x")) (ascii "x")).read (ascii "i") = some (ascii "x") :=
    hstores.read hr
  have htext : textAt (fs.addObject (blobHash (ascii "x")) (ascii "x")) makeTask = copyText := by
    have hinputs : makeTask.inputs = [ascii "i"] := rfl
    rw [textAt, hinputs, List.map_singleton, hashAt, hr₁]
    rfl
  have hlen : copyText.length < 4096 := by
    rw [copyText, taskText_make, List.length_append, List.length_append,
      (isHash_blobHash (ascii "x")).length]
    decide
  have hens : ensureTaskHash fs makeTask = .ok (true, _) :=
    ensureTaskHash_stored hi rfl hstore (by rwa [htext])
  obtain ⟨-, hh, -⟩ | ⟨h, -⟩ := ensureTaskHash_cases hi rfl hens
  · exact ⟨_, hens, hh, htext, hr₁⟩
  · cases h

theorem copy_data {c : Call} (htask : c.task = makeTask)
    (hr : c.fs.read (ascii "i") = some (ascii "x")) (htext : textAt c.fs c.task = copyText)
    (hout : c.exec.ran = true → c.exec.fs.read (ascii "o") = some (ascii "x")) :
    c.data ⊆ copyData := by
  rintro d (⟨p, hp, hd⟩ | rfl | ⟨hran, out, hmem, hd⟩)
  · rw [htask] at hp
    obtain rfl := List.mem_singleton.mp hp
    exact .inl (Option.some.inj (hd.symm.trans hr))
  · exact .inr htext
  · rw [htask] at hmem
    obtain rfl := List.mem_singleton.mp hmem
    exact .inl (Option.some.inj (hd.symm.trans (hout hran)))

/-- Calls of the task for one content of its input. -/
theorem copy_keysTell {tr : List Event} (h : ∀ c, Event.call c ∈ tr →
      c.task = makeTask ∧ c.fs.read (ascii "i") = some (ascii "x")) : KeysTell copyCommand tr := by
  have hval : ∀ c, Event.call c ∈ tr → ∀ out, copyCommand c.cmd c.inputs out = ascii "x" := by
    intro c hc out
    obtain ⟨htask, hr⟩ := h c hc
    rw [copyCommand, Call.inputs, htask, inputMap_make, hr]
    rfl
  intro c c' hc hc' _ _ _ out hout
  rw [hval c hc, hval c' hc', (h c hc).1]
  rw [(h c' hc').1] at hout
  exact ⟨hout, rfl⟩

/-- The tree after the edit that makes the input. -/
theorem copy_tree : Run (SessionStep copyCommand) ⟨(casInit workDir (ascii ".")).2, .idle⟩ [.other]
    ⟨makeTree (ascii "x"), .idle⟩ := by
  refine .single (.edit (editOutside_set_name ?_ (by decide) _))
  rw [workDir_noStore.init_eq]
  rfl

theorem plan_make : plan (fun _ => false) 2 makeManifest [] = .ok (.sorted [0]) := by
  rw [plan, parseManifest_make]
  decide +kernel

/-- The events of a run of the one task. -/
theorem loopEvents_make {sys : System} {e : Exec}
    (hens : ensureTaskHash fs makeTask = .ok (true, hashedTask fs₁ makeTask, fs₁))
    (hexec : executeTask sys fs₁ (hashedTask fs₁ makeTask) = .ok e) (hok : e.ok = true) :
    loopEvents (fun _ => sys) [0] ⟨[makeTask], fs⟩ = [Event.call ⟨makeTask, fs₁, e⟩, .other] := by
  simp only [loopEvents, List.getElem?_cons_zero, hens, hexec, hok, if_true]

/-- A run of the one task at the end of a history. -/
theorem buildRun_make {e : Exec}
    (hist : Run (SessionStep copyCommand) ⟨(casInit workDir (ascii ".")).2, .idle⟩ tr ⟨fs, .idle⟩)
    (hcwd : fs.cwd = [ascii "w"]) (hwo : fs.Writable (ascii "o"))
    (hens : ensureTaskHash fs makeTask = .ok (true, hashedTask fs₁ makeTask, fs₁))
    (hexec : executeTask copySystem fs₁ (hashedTask fs₁ makeTask) = .ok e) (hok : e.ok = true)
    (hcf : CollisionFree (involved (tr ++ [Event.call ⟨makeTask, fs₁, e⟩, .other])))
    (hkeys : KeysTell copyCommand (tr ++ [Event.call ⟨makeTask, fs₁, e⟩, .other])) :
    ∃ run, BuildRun copyCommand makeManifest (fun _ => copySystem) tr fs [0] run ∧
      run.world.fs = e.fs ∧ run.ran = if e.ran then [0] else [] := by
  have hi := (sessionInv workDir_noStore hist).tree
  have hinit : (casInit fs (ascii ".")).2 = fs := by rw [casInit_again hi.store hi.cache]
  have hmain : mainTask copySystem fs makeTask = .ok e := by rw [mainTask_hashed hens, hexec]
  have hev := loopEvents_make hens hexec hok
  refine ⟨⟨true, ⟨[e.task], e.fs⟩, if e.ran then [0] else []⟩, ⟨⟨_, workDir_noStore, hist⟩,
    ⟨_, _, _, plan_make⟩, ?_, ?_, ?_, ?_, rfl, ?_, ?_⟩, rfl, rfl⟩
  · rw [parseManifest_make, hcwd]
    exact taskArray_single rfl makeTask_ok
  · rw [parseManifest_make, hcwd]
    exact copy_computes
  · rw [parseManifest_make]
    intro t ht task htask out hout
    obtain rfl := List.mem_singleton.mp ht
    obtain rfl : makeTask = task := Option.some.inj htask
    rwa [List.mem_singleton.mp hout]
  · rw [parseManifest_make, hinit]
    exact runTasks_single hmain hok
  · rwa [parseManifest_make, hinit, hev]
  · rwa [parseManifest_make, hinit, hev]

/-- **A first run** makes the copy. -/
theorem copy_first : ∃ fs₁ e,
    ensureTaskHash (makeTree (ascii "x")) makeTask = .ok (true, hashedTask fs₁ makeTask, fs₁) ∧
      executeTask copySystem fs₁ (hashedTask fs₁ makeTask) = .ok e ∧ e.ok = true ∧
      fs₁.cwd = [ascii "w"] ∧ e.fs.cwd = [ascii "w"] ∧ fs₁.read (ascii "i") = some (ascii "x") ∧
      textAt fs₁ makeTask = copyText ∧ e.fs.read (ascii "o") = some (ascii "x") ∧
      e.fs.read (ascii "i") = some (ascii "x") ∧
      contents e.fs ⊆ {ascii "x", makeRecordText (ascii "x")} ∧
      ∃ content r, e.fs.read (metaPath (blobHash copyText)) = some content ∧
        readRecord content = .ok r := by
  obtain ⟨fs₁, hens, hh, htext, hr₁⟩ := copy_hashed (makeTree_store (ascii "x")).ok
    (makeTree_read (ascii "x"))
  have hcwd₁ : fs₁.cwd = [ascii "w"] := hh.stores.cwd.trans (makeTree_cwd _)
  have hkey : keyAt fs₁ makeTask = blobHash copyText := congrArg blobHash htext
  have hk := isHash_keyAt fs₁ makeTask
  have hmiss : fs₁.node (recordPath fs₁.cwd (keyAt fs₁ makeTask)) = none := by
    rw [hh.stores.node_record, makeTree_record]
  have hwo : fs₁.Writable (ascii "o") :=
    ((hh.stores.grows ∅).writable_iff (not_inside_o _)).mpr (makeTree_writable_o _)
  obtain ⟨fs₂, hfs₂⟩ : ∃ fs₂, fs₂ = fs₁.set (resolve fs₁.cwd (ascii "o")) (some (.file (ascii "x"))) :=
    ⟨_, rfl⟩
  have hsys : system copySystem makeTask.cmd fs₁ = (0, fs₂) := by
    rw [show makeTask.cmd = some (ascii "make") from rfl, system, copySystem, hr₁, makeSystem,
      if_pos hwo, hfs₂]
    rfl
  have hw := copy_computes.1 0 (List.mem_singleton_self 0) makeTask rfl fs₁ hcwd₁
  rw [hsys] at hw
  obtain ⟨hi₂, ho₂, hmiss₂⟩ := hw.unrecorded hh.ok (by rw [hcwd₁]; exact makeTask_ok.outside) hmiss
  have hro : fs₂.read (ascii "o") = some (ascii "x") := by
    rw [hfs₂]
    exact FS.read_set_self hwo.name _
  have hnode : fs₂.node [ascii "w", ascii "o"] = some (.file (ascii "x")) := by
    rw [hfs₂, resolve_o, hcwd₁]
    exact FS.set_node_self ..
  have hlen : (resultText fs₂ makeTask).length < 4096 := by
    rw [resultText_single (show makeTask.outputs = [ascii "o"] from rfl), hashAt, hro,
      Option.map_some, Option.getD_some, (isHash_blobHash _).length]
    decide
  have hwr : fs₂.Writable (metaPath (keyAt fs₁ makeTask)) := by
    rw [hw.writable_iff, hh.stores.writable_record hk]
    exact makeTree_writable_record _ hk
  have hmain := mainTask_success hens ((read_metaPath_eq_none hk fs₁).mpr hmiss) hsys hi₂ ho₂ hlen hwr
  rw [mainTask_hashed hens] at hmain
  have hg := hw.grows.trans (recorded_grows hi₂ ho₂ hmiss₂ _)
  refine ⟨fs₁, _, hens, hmain, rfl, hcwd₁, hg.cwd.trans hcwd₁, hr₁, htext,
    (read_recorded_output hi₂ ho₂ hmiss₂ _ (List.mem_singleton_self _)).trans hro, ?_,
    contents_make hh hw hnode, _, _, (hkey ▸ read_recorded hi₂ ho₂ hk),
    readRecord_recordOf makeTask_ok.plain (by decide) hk fs₂⟩
  refine hg.read_eq ?_ hr₁
  rw [hcwd₁]
  exact makeTask_ok.own _ (List.mem_singleton_self _)

/-- A first run, and one after the copy was removed, which finds the record. -/
theorem copy_runs : ∃ tr fs run fs' run',
    BuildRun copyCommand makeManifest (fun _ => copySystem) tr fs [0] run ∧
      BuildRun copyCommand makeManifest (fun _ => copySystem) [.other] fs' [0] run' ∧
      fs.node [ascii "w", ascii "o"] = none ∧ run.ran = [] ∧ fs.cwd = [ascii "w"] ∧
      fs'.cwd = [ascii "w"] ∧ fs.read (ascii "i") = some (ascii "x") ∧
      fs'.read (ascii "i") = some (ascii "x") := by
  obtain ⟨fs₁, e, hens, hexec, hok, hcwd₁, hcwdE, hr₁, htext₁, hoE, hiE, -, content, r, hrec, hr⟩ :=
    copy_first
  have hdata₁ : Call.data ⟨makeTask, fs₁, e⟩ ⊆ copyData := copy_data rfl hr₁ htext₁ fun _ => hoE
  -- the history: the first run, and the copy removed
  have hcopy := copy_computes.2 0 (List.mem_singleton_self 0) makeTask rfl
  have hinit := (sessionInv workDir_noStore copy_tree).tree
  have hstart := copy_tree.snoc (.start plan_make)
  rw [casInit_again hinit.store hinit.cache, parseManifest_make] at hstart
  have hfit : ∀ {fs : FS}, fs.cwd = [ascii "w"] → OutputsFit fs.cwd makeTask := by
    intro fs hcwd
    rw [hcwd]
    exact ⟨makeTask_ok.outside, fun out hout => (makeTask_ok.plain out hout).space⟩
  have hcall : SessionStep copyCommand ⟨makeTree (ascii "x"), .loop [makeTask] [0]⟩
      (.call ⟨makeTask, fs₁, e⟩) _ :=
    .call rfl hens (hfit hcwd₁) (hcopy fs₁ hcwd₁) hexec
  rw [if_pos hok] at hcall
  have hU : EditOutside e.fs (e.fs.set [ascii "w", ascii "o"] none) :=
    editOutside_set_name hcwdE (by decide) none
  have hist := ((hstart.snoc hcall).snoc (.finish ..)).snoc (.edit hU)
  have hrecU := (hU.keepsRecords.read_metaPath (isHash_blobHash copyText)).trans hrec
  have hcwdU : (e.fs.set [ascii "w", ascii "o"] none).cwd = [ascii "w"] := hcwdE
  have hnoneU : (e.fs.set [ascii "w", ascii "o"] none).node [ascii "w", ascii "o"] = none :=
    FS.set_node_self ..
  have hiU : (e.fs.set [ascii "w", ascii "o"] none).read (ascii "i") = some (ascii "x") := by
    rw [← hiE]
    refine FS.read_congr rfl (FS.set_node_ne _ _ ?_)
    rw [hcwdE]
    decide
  generalize e.fs.set [ascii "w", ascii "o"] none = U at *
  have hstoreU := (sessionInv workDir_noStore hist).tree.store.ok
  have hwU : U.Writable (ascii "o") := by
    refine ⟨by decide, ?_, ?_⟩ <;> rw [resolve_o, hcwdU]
    · rw [List.singleton_append, hnoneU]
      simp
    · rw [List.dropLast_concat, ← hcwdU]
      exact hstoreU.cwd
  -- the second run
  obtain ⟨fs₂, hens₂, hh₂, htext₂, hr₂⟩ := copy_hashed hstoreU hiU
  have hread₂ : fs₂.read (metaPath (keyAt fs₂ makeTask)) = some content := by
    rw [keyAt, htext₂, hh₂.stores.keepsRecords.read_metaPath (isHash_blobHash copyText), hrecU]
  have hexec₂ : executeTask copySystem fs₂ (hashedTask fs₂ makeTask) = .ok _ :=
    executeTask_hit hread₂ hr
  have hdata₂ : ∀ e₂ : Exec, e₂.ran = false → Call.data ⟨makeTask, fs₂, e₂⟩ ⊆ copyData := by
    intro e₂ hran
    refine copy_data rfl hr₂ htext₂ fun h => ?_
    rw [hran] at h
    cases h
  obtain ⟨run', hrun', -, -⟩ := buildRun_make copy_tree (makeTree_cwd _) (makeTree_writable_o _) hens
    hexec hok (copyData_collisionFree.mono (involved_subset fun ev hev => by
      simp only [List.cons_append, List.nil_append, List.mem_cons, List.not_mem_nil, or_false] at hev
      rcases hev with rfl | rfl | rfl
      · exact Set.empty_subset _
      · exact hdata₁
      · exact Set.empty_subset _))
    (copy_keysTell (by simp [hr₁]))
  obtain ⟨run, hrun, -, hran⟩ := buildRun_make hist hcwdU hwU hens₂ hexec₂ rfl
    (copyData_collisionFree.mono (involved_subset fun ev hev => by
      simp only [List.cons_append, List.nil_append, List.mem_cons, List.not_mem_nil, or_false] at hev
      rcases hev with rfl | rfl | rfl | rfl | rfl | rfl | rfl
      · exact Set.empty_subset _
      · exact Set.empty_subset _
      · exact hdata₁
      · exact Set.empty_subset _
      · exact Set.empty_subset _
      · exact hdata₂ _ rfl
      · exact Set.empty_subset _))
    (copy_keysTell (by simp [hr₁, hr₂]))
  exact ⟨_, U, run, _, run', hrun, hrun', hnoneU, hran, hcwdU, makeTree_cwd _, hiU,
    makeTree_read _⟩

end ReproVM
