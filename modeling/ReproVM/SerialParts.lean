/-
# The loop of `main` as a run of the parts

A pass that ends well is the parts of its task in a row, so a loop in which every task ends well
is a run of the parts to the end.  While a task is run all others are done or to do, so no other
one claims its key.
-/
import ReproVM.PartsAgree

namespace ReproVM

open Lib (PostOrder Run)
open Relation

variable {j : Job} {x y : Parts} {w : World} {t : TaskPtr} {before order : List TaskPtr} {st : Stage}

/-- The task `t` is at a stage, those in `before` are done, and the rest is to do. -/
structure Alone (j : Job) (before : List TaskPtr) (t : TaskPtr) (st : Stage) (x : Parts) : Prop where
  inv : PartInv j x
  stage : x.stage t = st
  done : ∀ u ∈ before, x.stage u = .done
  todo : ∀ u, u ∉ before → u ≠ t → x.stage u = .todo

/-- The next part of the task. -/
theorem Alone.next (h : Alone j before t st x) (hj : j.Ok) (htb : t ∉ before) {st' : Stage}
    (hs : PartStep j.sys j.list j.order x t (x.to t st' w)) : Alone j before t st' (x.to t st' w) where
  inv := by
    refine (h.inv.step hj hs fun _ task _ u _ hne hstu => ?_).inv
    by_cases hu : u ∈ before
    · simp [h.done u hu] at hstu
    · simp [h.todo u hu hne] at hstu
  stage := Parts.to_stage_self ..
  done u hu := (Parts.to_stage_ne _ _ _ (ne_of_mem_of_not_mem hu htb)).trans (h.done u hu)
  todo u hu hne := (Parts.to_stage_ne _ _ _ hne).trans (h.todo u hu hne)

/-- The same with the result of the part. -/
theorem Alone.part (h : Alone j before t st x) (hj : j.Ok) (htb : t ∉ before) {st' : Stage}
    {task task' : Task} {fs : FS} {outcome : Bool} {f : Task → Except Fault (Bool × Task × FS)}
    (htask : x.world.tasks[t]? = some task) (hf : f task = .ok (outcome, task', fs))
    (hs : ∀ w, x.world.part t outcome f = some w →
      PartStep j.sys j.list j.order x t (x.to t st' w)) :
    ∃ y, PartStep j.sys j.list j.order x t y ∧ Alone j before t st' y ∧
      y.world = ⟨x.world.tasks.set t task', fs⟩ := by
  have hstep := hs _ (World.part_eq_some.mpr ⟨task, task', fs, htask, hf, rfl⟩)
  exact ⟨_, hstep, h.next hj htb hstep, rfl⟩

theorem Alone.mark (h : Alone j before t st x) (hj : j.Ok) (ht : t ∈ j.order) (htb : t ∉ before)
    (hst : st ≠ .done) {task : Task} (htask : x.world.tasks[t]? = some task) :
    ∃ y, PartStep j.sys j.list j.order x t y ∧ Alone j before t st y ∧
      y.world = ⟨x.world.tasks.set t { task with status := .running }, x.world.fs⟩ := by
  have hself : ∀ w, x.to t st w = ⟨x.stage, w⟩ := fun w => by
    rw [Parts.to, ← h.stage, Function.update_eq_self]
  have hs : ∀ w, x.world.run t = some w → PartStep j.sys j.list j.order x t (x.to t st w) :=
    fun w hw => hself w ▸ .mark ht (h.stage ▸ hst) hw
  exact h.part hj htb htask rfl hs

/-- **A pass**, part by part. -/
theorem Alone.pass (h : Alone j before t .todo x) (hj : j.Ok) (ht : t ∈ j.order)
    (htb : t ∉ before) (hdeps : ∀ u, TransGen (DependsOn j.list) t u → u ∈ before) {task : Task}
    (htask : x.world.tasks[t]? = some task) {e : Exec}
    (hm : mainTask j.sys x.world.fs task = .ok e) (hok : e.ok = true) :
    ∃ tr y, Run (PartStep j.sys j.list j.order) x tr y ∧ Alone j before t .done y ∧
      y.world = ⟨x.world.tasks.set t e.task, e.fs⟩ := by
  have hget : ∀ {y : Parts} {task' : Task} {fs : FS}, y.world = ⟨x.world.tasks.set t task', fs⟩ →
      y.world.tasks[t]? = some task' := fun hy => by
    rw [hy]
    exact List.getElem?_set_self (List.getElem?_eq_some_iff.mp htask).1
  obtain ⟨task₁, fs₁, hhash, hrest⟩ := mainTask_parts hm hok
  obtain ⟨x₁, hs₁, h₁, hw₁⟩ := h.part hj htb htask hhash fun w hw =>
    .hash ht h.stage (fun u hu => h.done u (hdeps u hu)) hw
  obtain ⟨x₂, hs₂, h₂, hw₂⟩ := h₁.mark hj ht htb (by simp) (hget hw₁)
  rw [hw₁, List.set_set] at hw₂
  have hrun := (Run.single hs₁).snoc hs₂
  rcases hrest with hhit | ⟨task₂, fs₂, fs₃, hmiss, hcommand, hrecord⟩
  · obtain ⟨x₃, hs₃, h₃, hw₃⟩ := h₂.part hj htb (hget hw₂) hhit fun w hw =>
      .hit ht h₂.stage (by rwa [hw₂] at hw ⊢)
    rw [hw₂, List.set_set] at hw₃
    exact ⟨_, x₃, hrun.snoc hs₃, h₃, hw₃⟩
  · obtain ⟨x₃, hs₃, h₃, hw₃⟩ := h₂.part hj htb (hget hw₂) hmiss fun w hw =>
      .miss ht h₂.stage (by rwa [hw₂] at hw ⊢)
    rw [hw₂, List.set_set] at hw₃
    obtain ⟨x₄, hs₄, h₄, hw₄⟩ := h₃.part hj htb (hget hw₃) (congrArg Except.ok hcommand) fun w hw =>
      .command ht h₃.stage (by rwa [hw₃] at hw ⊢)
    rw [hw₃, List.set_set] at hw₄
    obtain ⟨x₅, hs₅, h₅, hw₅⟩ := h₄.part hj htb (hget hw₄) hrecord fun w hw =>
      .record ht h₄.stage (by rwa [hw₄] at hw ⊢)
    rw [hw₄, List.set_set] at hw₅
    exact ⟨_, x₅, ((hrun.snoc hs₃).snoc hs₄).snoc hs₅, h₅, hw₅⟩

/-- A pass that does not end well leaves its task failed. -/
theorem mainTask_failed {sys : System} {fs : FS} {task : Task} {e : Exec}
    (h : mainTask sys fs task = .ok e) (hok : e.ok = false) : e.task.status = .failed := by
  obtain ⟨p, hp, htask⟩ := mainTask_with h
  obtain ⟨⟨hgood, -⟩ | ⟨-, hfailed⟩, -⟩ := passWith_cases p task
  · rw [hp, hok] at hgood
    cases hgood
  · rwa [← htask]

/-- The loop from a pass on. -/
theorem runTasks_parts (hj : j.Ok) (horder : j.order = before ++ order) (hx : PartInv j x)
    (hdone : ∀ u ∈ before, x.stage u = .done) (htodo : ∀ u, u ∉ before → x.stage u = .todo)
    {run : MainRun} (h : runTasks (fun _ => j.sys) order x.world = .ok run)
    (hwell : ∀ t ∈ order, EndedWell run.world t) :
    ∃ tr z, Run (PartStep j.sys j.list j.order) x tr z ∧ PartInv j z ∧ z.world = run.world ∧
      ∀ t ∈ j.order, z.stage t = .done := by
  induction order generalizing before x run with
  | nil =>
    cases h
    rw [List.append_nil] at horder
    exact ⟨[], x, .refl, hx, rfl, horder ▸ hdone⟩
  | cons t order ih =>
    have hA := hj.array
    rw [horder] at hA
    have htb := hA.notMem_done
    obtain ⟨task, e, htask, hm, hend⟩ := runTasks_cons h
    rcases hend with ⟨hok, hrun⟩ | ⟨hok, r, hrest, hrun⟩
    · -- the loop ended here, with a failed task
      obtain ⟨task', htask', hst⟩ := hwell t List.mem_cons_self
      rw [hrun, List.getElem?_set_self (List.getElem?_eq_some_iff.mp htask).1] at htask'
      obtain rfl := Option.some.inj htask'
      rw [mainTask_failed hm hok] at hst
      simp at hst
    · have hdeps : ∀ u, TransGen (DependsOn j.list) t u → u ∈ before := fun u hu => by
        obtain ⟨v, htv, hvu⟩ := TransGen.head'_iff.mp hu
        exact hA.sorted.left.reach_mem (hA.sorted.before rfl htv) hvu
      have halone : Alone j before t .todo x := ⟨hx, htodo t htb, hdone, fun u hu _ => htodo u hu⟩
      obtain ⟨tr, y, hpass, hy, hw⟩ := halone.pass hj (by rw [horder]; simp) htb hdeps htask hm hok
      rw [← hw] at hrest
      have horder' : j.order = (before ++ [t]) ++ order := by rw [horder]; simp
      have hdone' : ∀ u ∈ before ++ [t], y.stage u = .done := fun u hu => by
        rcases List.mem_append.mp hu with hu | hu
        · exact hy.done u hu
        · exact List.mem_singleton.mp hu ▸ hy.stage
      have htodo' : ∀ u, u ∉ before ++ [t] → y.stage u = .todo := fun u hu => by
        rw [List.mem_append, List.mem_singleton, not_or] at hu
        exact hy.todo u hu.1 hu.2
      obtain ⟨tr', z, hrest', hz, hzw, hzd⟩ := ih horder' hy.inv hdone' htodo' hrest
        fun u hu => hrun ▸ hwell u (List.mem_cons_of_mem _ hu)
      exact ⟨_, z, hpass.append hrest', hz, hzw.trans hrun.symm, hzd⟩

/-- **The loop of `main`** in which every task ends well is a run of the parts to the end. -/
theorem serial_parts (hj : j.Ok) {run : MainRun}
    (h : runTasks (fun _ => j.sys) j.order ⟨j.list, j.fs⟩ = .ok run)
    (hwell : ∀ t ∈ j.order, EndedWell run.world t) :
    ∃ tr z, PartRun j tr z ∧ PartInv j z ∧ z.world = run.world ∧ ∀ t ∈ j.order, z.stage t = .done :=
  runTasks_parts hj (List.nil_append _).symm (partInv_init hj) (fun _ h => absurd h (by simp))
    (fun _ _ => rfl) h hwell

end ReproVM
