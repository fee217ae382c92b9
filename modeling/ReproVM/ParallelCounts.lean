/-
# What the counters and the ready queue of the parallel executor mean

`pending_deps[i]` counts the entries of `deps` of task `i` whose task is in the subset and not
yet completed, and a task enters the queue when that count reaches zero, once.  Only three events
touch this accounting: taking a task off the queue, and the two critical sections that lower
`remaining`.  All others are quiet (`quiet_step`).
-/
import ReproVM.ParallelLocks
import ReproVM.TopoSort

namespace ReproVM

open Lib (Run release released)

variable {a : ParallelArgs} {s s' : ParallelState} {e : ParallelEvent} {tr : List ParallelEvent}

/-! ## 1. Names and positions -/

/-- What is asked of the arguments: tasks of the list, each once, linked by `parse_manifest`, and
no other task of the list has the name of one of the subset. -/
structure ParallelArgs.Ok (a : ParallelArgs) : Prop where
  linked : WellLinked a.list
  nodup : a.subset.Nodup
  lt : ∀ t ∈ a.subset, t < a.list.length
  names : ∀ t ∈ a.subset, ∀ u, nameOf a.list u = nameOf a.list t → u = t

theorem ParallelArgs.Ok.nameOf_iff (ha : a.Ok) {d : Bytes} {t : TaskPtr} (ht : t ∈ a.subset) :
    nameOf a.list t = some d ↔ findTask a.list d = some t := by
  refine ⟨fun h => ?_, nameOf_of_findTask⟩
  cases hf : findTask a.list d with
  | none =>
    have hlt := ha.lt t ht
    rw [nameOf, List.getElem?_eq_getElem hlt, Option.map_some, Option.some.injEq] at h
    rw [findTask, List.findIdx?_eq_none_iff] at hf
    exact absurd h (by simpa using hf _ (List.getElem_mem hlt))
  | some u => rw [ha.names t ht u ((nameOf_of_findTask hf).trans h.symm)]

theorem findTaskIndex_eq (ha : a.Ok) (d : Bytes) :
    findTaskIndex a.list a.subset d =
      (findTask a.list d).bind fun u =>
        if u ∈ a.subset then some (a.subset.idxOf u) else none := by
  cases hf : findTask a.list d with
  | none =>
    rw [Option.bind_none, findTaskIndex, List.findIdx?_eq_none_iff]
    intro t ht
    simp [ha.nameOf_iff ht, hf]
  | some u =>
    rw [Option.bind_some, findTaskIndex]
    by_cases hu : u ∈ a.subset
    · have hlt := List.idxOf_lt_length_of_mem hu
      rw [if_pos hu, List.findIdx?_eq_some_iff_getElem]
      refine ⟨hlt, ?_, fun j hj => ?_⟩
      · rw [List.getElem_idxOf hlt, decide_eq_true_eq, ha.nameOf_iff hu, hf]
      · rw [decide_eq_true_eq, ha.nameOf_iff (List.getElem_mem _), hf, Option.some.injEq]
        intro hju
        rw [hju, ha.nodup.idxOf_getElem] at hj
        exact absurd hj (Nat.lt_irrefl j)
    · rw [if_neg hu, List.findIdx?_eq_none_iff]
      intro t ht
      have hne : u ≠ t := fun h => hu (h ▸ ht)
      simp [ha.nameOf_iff ht, hf, hne]

theorem pendingCount_eq (ha : a.Ok) (t : TaskPtr) :
    pendingCount a t = remDeps a.list a.subset [] t := by
  rw [pendingCount, remDeps]
  congr 1
  funext d
  rw [findTaskIndex_eq ha]
  cases findTask a.list d with
  | none => rfl
  | some u => by_cases hu : u ∈ a.subset <;> simp [hu]

/-- The entry of `pending_deps` for a task of the subset. -/
def countOf (a : ParallelArgs) (s : ParallelState) (t : TaskPtr) : Int :=
  s.pendingDeps (a.subset.idxOf t)

theorem releaseDependent_eq (ha : a.Ok) {dep : TaskPtr} (hd : dep < a.list.length) :
    releaseDependent a s dep =
      if dep ∉ a.subset then s
      else
        let pendingDeps := Function.update s.pendingDeps (a.subset.idxOf dep) (countOf a s dep - 1)
        if countOf a s dep - 1 = 0 then
          { s with pendingDeps := pendingDeps, ready := s.ready ++ [dep] }
        else { s with pendingDeps := pendingDeps } := by
  have hname : nameOf a.list dep = some a.list[dep].name := by
    rw [nameOf, List.getElem?_eq_getElem hd, Option.map_some]
  rw [releaseDependent, hname, Option.bind_some, findTaskIndex_eq ha]
  by_cases h : dep ∈ a.subset
  · rw [(ha.nameOf_iff h).mp hname, Option.bind_some, if_pos h, if_neg (not_not_intro h)]
    simp only [Function.update_self]
    rfl
  · have hnone : ((findTask a.list a.list[dep].name).bind fun u =>
        if u ∈ a.subset then some (a.subset.idxOf u) else none) = none := by
      cases hf : findTask a.list a.list[dep].name with
      | none => rfl
      | some u =>
        rw [Option.bind_some, if_neg]
        intro hu
        exact h (ha.names u hu dep (hname.trans (nameOf_of_findTask hf).symm) ▸ hu)
    rw [hnone, if_pos h]

/-- The loop over `t->dependents` is a countdown of the tasks of the subset. -/
theorem foldl_releaseDependent_eq (ha : a.Ok) {xs : List TaskPtr}
    (hxs : ∀ x ∈ xs, x < a.list.length) {s : ParallelState} {c : TaskPtr → Int} (hc : ∀ x ∈ a.subset, countOf a s x = c x) :
    (xs.foldl (releaseDependent a) s).ready = (release c s.ready (xs.filter (· ∈ a.subset))).2 ∧
      ∀ x ∈ a.subset, countOf a (xs.foldl (releaseDependent a) s) x
        = (release c s.ready (xs.filter (· ∈ a.subset))).1 x := by
  induction xs generalizing s c with
  | nil => exact ⟨rfl, hc⟩
  | cons x xs ih =>
    have hxs' : ∀ y ∈ xs, y < a.list.length := fun y hy => hxs y (List.mem_cons_of_mem _ hy)
    rw [List.foldl_cons, releaseDependent_eq ha (hxs x List.mem_cons_self)]
    by_cases hx : x ∈ a.subset
    · rw [if_neg (by simpa using hx), List.filter_cons_of_pos (by simpa using hx), release,
        Function.update_self, hc x hx]
      have hupd : ∀ ready, ∀ y ∈ a.subset,
          countOf a { s with
            pendingDeps := Function.update s.pendingDeps (a.subset.idxOf x) (c x - 1)
            ready := ready } y = Function.update c x (c x - 1) y := by
        intro ready y hy
        dsimp only [countOf]
        by_cases hyx : y = x
        · subst hyx
          rw [Function.update_self, Function.update_self]
        · rw [Function.update_of_ne hyx,
            Function.update_of_ne fun h => hyx ((List.idxOf_inj hy).mp h)]
          exact hc y hy
      dsimp only
      split
      · exact ih hxs' (hupd _)
      · exact ih hxs' (hupd s.ready)
    · rw [if_pos hx, List.filter_cons_of_neg (by simpa using hx)]
      exact ih hxs' hc

/-! ## 2. What a run has done -/

/-- The tasks taken off the queue, completed, and given up for lack of a hash, in order. -/
def popped (tr : List ParallelEvent) : List TaskPtr :=
  tr.filterMap fun | .pop _ t => some t | _ => none

def finished (tr : List ParallelEvent) : List TaskPtr :=
  tr.filterMap fun | .done _ t => some t | _ => none

def hashFailures (tr : List ParallelEvent) : List TaskPtr :=
  tr.filterMap fun | .hashFailed _ t => some t | _ => none

theorem popped_append (tr tr' : List ParallelEvent) :
    popped (tr ++ tr') = popped tr ++ popped tr' :=
  List.filterMap_append ..

theorem finished_append (tr tr' : List ParallelEvent) :
    finished (tr ++ tr') = finished tr ++ finished tr' :=
  List.filterMap_append ..

theorem hashFailures_append (tr tr' : List ParallelEvent) :
    hashFailures (tr ++ tr') = hashFailures tr ++ hashFailures tr' :=
  List.filterMap_append ..

theorem popped_same (h : popped [e] = []) : popped (tr ++ [e]) = popped tr := by
  rw [popped_append, h, List.append_nil]

theorem finished_same (h : finished [e] = []) : finished (tr ++ [e]) = finished tr := by
  rw [finished_append, h, List.append_nil]

theorem hashFailures_same (h : hashFailures [e] = []) :
    hashFailures (tr ++ [e]) = hashFailures tr := by
  rw [hashFailures_append, h, List.append_nil]

/-- Events that leave the accounting alone. -/
def ParallelEvent.Quiet : ParallelEvent → Prop
  | .pop _ _ | .hashFailed _ _ | .done _ _ => False
  | _ => True

theorem ParallelEvent.Quiet.lists (h : e.Quiet) (tr : List ParallelEvent) :
    popped (tr ++ [e]) = popped tr ∧ finished (tr ++ [e]) = finished tr ∧
      hashFailures (tr ++ [e]) = hashFailures tr := by
  cases e <;> first
    | exact h.elim
    | exact ⟨popped_same rfl, finished_same rfl, hashFailures_same rfl⟩

theorem Pc.task_locked {p q : Pc} (h : p.locked = some q) : q.task = p.task := by
  cases p <;> simp_all [Pc.locked] <;> subst h <;> rfl

theorem goto_task {w : Nat} {pc : Pc} (h : pc.task = (s.pc w).task) (v : Nat) :
    ((s.goto w pc).pc v).task = (s.pc v).task := by
  rw [goto_pc]
  split
  · subst v
    exact h
  · rfl

theorem broadcast_task (v : Nat) : (s.broadcast.pc v).task = (s.pc v).task := by
  rw [broadcast_pc]
  split
  · rename_i h
    rw [h]
    rfl
  · rfl

/-- **A quiet step.** -/
theorem quiet_step (hl : LockInv a tr s) (hq : e.Quiet) (hs : ParallelStep a s e s') :
    s'.ready = s.ready ∧ s'.pendingDeps = s.pendingDeps ∧ s'.remaining = s.remaining ∧
      ∀ v, (s'.pc v).task = (s.pc v).task := by
  rw [parallelStep_iff] at hs
  cases e with
  | spawn =>
    obtain ⟨i, hi, hm, rfl⟩ := hs
    have hub : s.pc i = .unborn := (hl.unborn i).mpr (by rw [hm]; exact Nat.le_refl i)
    exact ⟨rfl, rfl, rfl, goto_task (by rw [hub]; rfl)⟩
  | mainLock =>
    obtain ⟨-, -, rfl⟩ := hs
    exact ⟨rfl, rfl, rfl, fun _ => rfl⟩
  | mainBroadcast =>
    obtain ⟨-, rfl⟩ := hs
    exact ⟨rfl, rfl, rfl, broadcast_task⟩
  | join =>
    obtain ⟨i, -, -, -, rfl⟩ := hs
    exact ⟨rfl, rfl, rfl, fun _ => rfl⟩
  | lock w =>
    obtain ⟨-, pc, hpc, rfl⟩ := hs
    exact ⟨rfl, rfl, rfl, goto_task (Pc.task_locked hpc)⟩
  | wait w =>
    obtain ⟨hpc, -, -, rfl⟩ := hs
    exact ⟨rfl, rfl, rfl, goto_task (by rw [hpc]; rfl)⟩
  | exit w =>
    obtain ⟨hpc, -, -, rfl⟩ := hs
    exact ⟨rfl, rfl, rfl, goto_task (by rw [hpc]; rfl)⟩
  | retry w =>
    obtain ⟨hpc, -, -, rfl⟩ := hs
    exact ⟨rfl, rfl, rfl, goto_task (by rw [hpc]; rfl)⟩
  | pop w t => exact hq.elim
  | hash w t ok =>
    cases ok <;> obtain ⟨hpc, rfl⟩ := hs <;>
      exact ⟨rfl, rfl, rfl, goto_task (by rw [hpc]; rfl)⟩
  | lookup w t hit =>
    cases hit <;> obtain ⟨hpc, rfl⟩ := hs <;>
      exact ⟨rfl, rfl, rfl, goto_task (by rw [hpc]; rfl)⟩
  | command w t ok =>
    cases ok <;> obtain ⟨hpc, rfl⟩ := hs <;>
      exact ⟨rfl, rfl, rfl, goto_task (by rw [hpc]; rfl)⟩
  | record w t ok =>
    cases ok <;> obtain ⟨hpc, rfl⟩ := hs <;>
      exact ⟨rfl, rfl, rfl, goto_task (by rw [hpc]; rfl)⟩
  | hashFailed w t => exact hq.elim
  | failed w t =>
    obtain ⟨hpc, rfl⟩ := hs
    exact ⟨rfl, rfl, rfl, goto_task (by rw [hpc]; rfl)⟩
  | done w t => exact hq.elim
  | spurious w =>
    obtain ⟨hpc, rfl⟩ := hs
    exact ⟨rfl, rfl, rfl, goto_task (by rw [hpc]; rfl)⟩

/-! ## 3. The tasks that workers hold -/

/-- A task taken off the queue is completed, given up, or held by one worker. -/
structure HoldInv (tr : List ParallelEvent) (s : ParallelState) : Prop where
  held : ∀ w t, (s.pc w).task = some t →
    t ∈ popped tr ∧ t ∉ finished tr ∧ t ∉ hashFailures tr
  unique : ∀ v w t, (s.pc v).task = some t → (s.pc w).task = some t → v = w
  ended : (finished tr ++ hashFailures tr).Nodup ∧
    ∀ t ∈ finished tr ++ hashFailures tr, t ∈ popped tr
  accounted : ∀ t ∈ popped tr,
    t ∈ finished tr ∨ t ∈ hashFailures tr ∨ ∃ w, (s.pc w).task = some t

/-- The queue and the counters. -/
structure QueueInv (a : ParallelArgs) (tr : List ParallelEvent) (s : ParallelState) : Prop where
  nodup : (popped tr ++ s.ready).Nodup
  sub : ∀ x ∈ popped tr ++ s.ready, x ∈ a.subset
  pending : ∀ x ∈ a.subset, countOf a s x = remDeps a.list a.subset (finished tr) x
  ready_iff : ∀ x ∈ a.subset,
    remDeps a.list a.subset (finished tr) x = 0 ↔ x ∈ popped tr ++ s.ready
  remaining :
    s.remaining + ((finished tr).length + (hashFailures tr).length : Nat) = a.subset.length

theorem holdInv_init : HoldInv [] (parallelInit a) where
  held w t h := by simp [parallelInit, Pc.task] at h
  unique v w t h := by simp [parallelInit, Pc.task] at h
  ended := by simp [finished, hashFailures]
  accounted t h := by simp [popped] at h

theorem queueInv_init (ha : a.Ok) : QueueInv a [] (parallelInit a) where
  nodup := by simpa [popped, parallelInit] using ha.nodup.filter _
  sub x hx := by
    simp only [popped, parallelInit, List.filterMap_nil, List.nil_append, List.mem_filter] at hx
    exact hx.1
  pending x hx := by
    have hi := List.idxOf_lt_length_of_mem hx
    simp only [countOf, parallelInit, List.getElem?_eq_getElem hi, List.getElem_idxOf,
      Option.map_some, Option.getD_some, pendingCount_eq ha, finished, List.filterMap_nil]
  ready_iff x hx := by
    simp [popped, finished, parallelInit, hx, pendingCount_eq ha]
  remaining := by simp [parallelInit, finished, hashFailures]

theorem QueueInv.quiet (h : QueueInv a tr s) (hl : LockInv a tr s) (hq : e.Quiet)
    (hs : ParallelStep a s e s') : QueueInv a (tr ++ [e]) s' := by
  obtain ⟨hp, hf, hh⟩ := hq.lists tr
  obtain ⟨hr, hd, hrem, -⟩ := quiet_step hl hq hs
  have hcount : countOf a s' = countOf a s := by
    funext x
    rw [countOf, hd]
    rfl
  constructor
  · rw [hp, hr]
    exact h.nodup
  · rw [hp, hr]
    exact h.sub
  · rw [hf, hcount]
    exact h.pending
  · rw [hf, hp, hr]
    exact h.ready_iff
  · rw [hf, hh, hrem]
    exact h.remaining

theorem HoldInv.quiet (h : HoldInv tr s) (hl : LockInv a tr s) (hq : e.Quiet)
    (hs : ParallelStep a s e s') : HoldInv (tr ++ [e]) s' := by
  obtain ⟨hp, hf, hh⟩ := hq.lists tr
  obtain ⟨-, -, -, ht⟩ := quiet_step hl hq hs
  constructor
  · intro w t
    rw [hp, hf, hh, ht]
    exact h.held w t
  · intro v w t
    rw [ht, ht]
    exact h.unique v w t
  · rw [hp, hf, hh]
    exact h.ended
  · rw [hp, hf, hh]
    simp only [ht]
    exact h.accounted

/-! ## 4. Taking a task off the queue -/

section Pop

variable {w : Nat} {t : TaskPtr}

theorem HoldInv.pop (h : HoldInv tr s) (hnd : (popped tr ++ s.ready).Nodup)
    (hs : ParallelStep a s (.pop w t) s') : HoldInv (tr ++ [ParallelEvent.pop w t]) s' := by
  obtain ⟨rest, hr, hpc, rfl⟩ := parallelStep_iff.mp hs
  have hp : popped (tr ++ [ParallelEvent.pop w t]) = popped tr ++ [t] := popped_append ..
  have hf : finished (tr ++ [ParallelEvent.pop w t]) = finished tr := finished_same rfl
  have hh : hashFailures (tr ++ [ParallelEvent.pop w t]) = hashFailures tr := hashFailures_same rfl
  have hnew : t ∉ popped tr := by
    rw [hr, List.nodup_append] at hnd
    exact fun ht => hnd.2.2 t ht t List.mem_cons_self rfl
  have hend : t ∉ finished tr ++ hashFailures tr := fun ht => hnew (h.ended.2 t ht)
  -- every other worker holds what it held, and that is not `t`
  have hother : ∀ v u, v ≠ w →
      ((({ ((s.goto w (.hash t)).setMu none).setStatus t .running with ready := rest } :
        ParallelState).pc v).task = some u ↔ (s.pc v).task = some u) := by
    intro v u hv
    simp [goto_pc, hv]
  have hself : ∀ u,
      ((({ ((s.goto w (.hash t)).setMu none).setStatus t .running with ready := rest } :
        ParallelState).pc w).task = some u ↔ u = t) := by
    intro u
    simp [goto_pc, Pc.task, eq_comm]
  refine ⟨fun v u hv => ?_, fun v v' u hv hv' => ?_, ?_, fun u hu => ?_⟩
  · rw [hp, hf, hh]
    by_cases hvw : v = w
    · rw [hvw, hself] at hv
      subst hv
      simpa using hend
    · rw [hother v u hvw] at hv
      obtain ⟨h1, h2⟩ := h.held v u hv
      exact ⟨List.mem_append_left _ h1, h2⟩
  · by_cases hvw : v = w <;> by_cases hvw' : v' = w
    · rw [hvw, hvw']
    · rw [hvw, hself] at hv
      rw [hother v' u hvw'] at hv'
      exact absurd (h.held v' u hv').1 (hv ▸ hnew)
    · rw [hvw', hself] at hv'
      rw [hother v u hvw] at hv
      exact absurd (h.held v u hv).1 (hv' ▸ hnew)
    · rw [hother v u hvw] at hv
      rw [hother v' u hvw'] at hv'
      exact h.unique v v' u hv hv'
  · rw [hp, hf, hh]
    exact ⟨h.ended.1, fun u hu => List.mem_append_left _ (h.ended.2 u hu)⟩
  · rw [hp, List.mem_append, List.mem_singleton] at hu
    rw [hf, hh]
    rcases hu with hu | rfl
    · rcases h.accounted u hu with h1 | h1 | ⟨v, hv⟩
      · exact .inl h1
      · exact .inr (.inl h1)
      · refine .inr (.inr ⟨v, ?_⟩)
        rw [hother]
        · exact hv
        · rintro rfl
          simp [hpc, Pc.task] at hv
    · exact .inr (.inr ⟨w, (hself u).mpr rfl⟩)

theorem QueueInv.pop (h : QueueInv a tr s) (hs : ParallelStep a s (.pop w t) s') :
    QueueInv a (tr ++ [ParallelEvent.pop w t]) s' := by
  obtain ⟨rest, hr, hpc, rfl⟩ := parallelStep_iff.mp hs
  have hp : popped (tr ++ [ParallelEvent.pop w t]) ++ rest = popped tr ++ s.ready := by
    rw [popped_append, hr, List.append_assoc]
    rfl
  have hf : finished (tr ++ [ParallelEvent.pop w t]) = finished tr := finished_same rfl
  have hh : hashFailures (tr ++ [ParallelEvent.pop w t]) = hashFailures tr := hashFailures_same rfl
  constructor
  · rw [hp]
    exact h.nodup
  · rw [hp]
    exact h.sub
  · rw [hf]
    exact h.pending
  · rw [hf, hp]
    exact h.ready_iff
  · rw [hf, hh]
    exact h.remaining

end Pop

/-! ## 5. The sections that lower `remaining` -/

section End

variable {w : Nat} {t : TaskPtr}

/-- Worker `w` lets go of `t`. -/
theorem HoldInv.drop (h : HoldInv tr s) (ht : (s.pc w).task = some t)
    (hw : (s'.pc w).task = none) (hv : ∀ v, v ≠ w → (s'.pc v).task = (s.pc v).task)
    (hp : popped (tr ++ [e]) = popped tr)
    (he : finished (tr ++ [e]) = finished tr ++ [t] ∧ hashFailures (tr ++ [e]) = hashFailures tr ∨
      finished (tr ++ [e]) = finished tr ∧ hashFailures (tr ++ [e]) = hashFailures tr ++ [t]) :
    HoldInv (tr ++ [e]) s' := by
  obtain ⟨htp, htf, hth⟩ := h.held w t ht
  obtain ⟨hnd, hsub⟩ := h.ended
  have hperm : (finished (tr ++ [e]) ++ hashFailures (tr ++ [e])).Perm
      (t :: (finished tr ++ hashFailures tr)) := by
    rcases he with ⟨h1, h2⟩ | ⟨h1, h2⟩
    · rw [h1, h2, List.append_assoc]
      exact List.perm_middle
    · rw [h1, h2, ← List.append_assoc]
      exact List.perm_append_singleton ..
  have hmem : ∀ u, u ∈ finished (tr ++ [e]) ∨ u ∈ hashFailures (tr ++ [e]) ↔
      u = t ∨ u ∈ finished tr ∨ u ∈ hashFailures tr := by
    intro u
    rw [← List.mem_append, hperm.mem_iff, List.mem_cons, List.mem_append]
  have hne : ∀ v u, (s'.pc v).task = some u → v ≠ w ∧ (s.pc v).task = some u := by
    intro v u hvu
    have hvw : v ≠ w := by
      rintro rfl
      simp [hw] at hvu
    exact ⟨hvw, hv v hvw ▸ hvu⟩
  refine ⟨fun v u hvu => ?_, fun v v' u hvu hvu' => ?_, ⟨?_, fun u hu => ?_⟩, fun u hu => ?_⟩
  · obtain ⟨hvw, hvu⟩ := hne v u hvu
    obtain ⟨h1, h2, h3⟩ := h.held v u hvu
    have hut : u ≠ t := by
      rintro rfl
      exact hvw (h.unique v w u hvu ht)
    rw [hp, ← not_or, hmem]
    simp [h1, h2, h3, hut]
  · exact h.unique v v' u (hne v u hvu).2 (hne v' u hvu').2
  · rw [hperm.nodup_iff, List.nodup_cons, List.mem_append]
    exact ⟨by simp [htf, hth], hnd⟩
  · rw [List.mem_append, hmem] at hu
    rw [hp]
    rcases hu with rfl | hu
    · exact htp
    · exact hsub u (List.mem_append.mpr hu)
  · rw [hp] at hu
    rw [← or_assoc, hmem]
    by_cases hut : u = t
    · exact .inl (.inl hut)
    · rcases h.accounted u hu with h1 | h1 | ⟨v, hvu⟩
      · exact .inl (.inr (.inl h1))
      · exact .inl (.inr (.inr h1))
      · refine .inr ⟨v, ?_⟩
        rw [hv v]
        · exact hvu
        · rintro rfl
          exact hut (Option.some.inj (hvu.symm.trans ht))

theorem HoldInv.hashFailed (h : HoldInv tr s) (hs : ParallelStep a s (.hashFailed w t) s') :
    HoldInv (tr ++ [ParallelEvent.hashFailed w t]) s' := by
  obtain ⟨hpc, rfl⟩ := parallelStep_iff.mp hs
  refine h.drop (w := w) (t := t) (by rw [hpc]; rfl) ?_ (fun v hv => ?_) ?_ (.inr ⟨?_, ?_⟩)
  · exact (broadcast_task w).trans (by rw [goto_pc, if_pos rfl]; rfl)
  · exact (broadcast_task v).trans (by rw [goto_pc, if_neg hv])
  · exact popped_same rfl
  · exact finished_same rfl
  · exact hashFailures_append ..

theorem HoldInv.done (h : HoldInv tr s) (hs : ParallelStep a s (.done w t) s') :
    HoldInv (tr ++ [ParallelEvent.done w t]) s' := by
  obtain ⟨hpc, pd, rd, rfl⟩ := (parallelStep_iff.mp hs).done
  refine h.drop (w := w) (t := t) (by rw [hpc]; rfl) ?_ (fun v hv => ?_) ?_ (.inl ⟨?_, ?_⟩)
  · exact (broadcast_task w).trans (by rw [goto_pc, if_pos rfl]; rfl)
  · exact (broadcast_task v).trans (by rw [goto_pc, if_neg hv])
  · exact popped_same rfl
  · exact finished_append ..
  · exact hashFailures_same rfl

theorem QueueInv.hashFailed (h : QueueInv a tr s) (hs : ParallelStep a s (.hashFailed w t) s') :
    QueueInv a (tr ++ [ParallelEvent.hashFailed w t]) s' := by
  obtain ⟨hpc, rfl⟩ := parallelStep_iff.mp hs
  have hp : popped (tr ++ [ParallelEvent.hashFailed w t]) = popped tr := popped_same rfl
  have hf : finished (tr ++ [ParallelEvent.hashFailed w t]) = finished tr := finished_same rfl
  have hh : hashFailures (tr ++ [ParallelEvent.hashFailed w t]) = hashFailures tr ++ [t] :=
    hashFailures_append ..
  constructor
  · rw [hp]
    exact h.nodup
  · rw [hp]
    exact h.sub
  · rw [hf]
    exact h.pending
  · rw [hf, hp]
    exact h.ready_iff
  · have := h.remaining
    rw [hf, hh, List.length_append, List.length_singleton]
    push_cast at this ⊢
    omega

theorem dependentsOf_lt (ha : a.Ok) {x : TaskPtr} (hx : x ∈ dependentsOf a.list t) :
    x < a.list.length := by
  have hpos : 0 < edgeCount a.list t x := by
    rw [← ha.linked]
    exact List.count_pos_iff.mpr hx
  by_contra hlt
  rw [edgeCount, depsOf, List.getElem?_eq_none (Nat.le_of_not_lt hlt)] at hpos
  simp at hpos

/-- **A completion.**  The counts stay exact, and the tasks whose count reaches zero join. -/
theorem QueueInv.done (h : QueueInv a tr s) (ha : a.Ok) (hhold : HoldInv tr s)
    (hs : ParallelStep a s (.done w t) s') : QueueInv a (tr ++ [ParallelEvent.done w t]) s' := by
  obtain ⟨hpc, rfl⟩ := parallelStep_iff.mp hs
  obtain ⟨htp, htf, -⟩ := hhold.held w t (by rw [hpc]; rfl)
  have hts : t ∈ a.subset := h.sub t (List.mem_append_left _ htp)
  have hp : popped (tr ++ [ParallelEvent.done w t]) = popped tr := popped_same rfl
  have hf : finished (tr ++ [ParallelEvent.done w t]) = finished tr ++ [t] := finished_append ..
  have hh : hashFailures (tr ++ [ParallelEvent.done w t]) = hashFailures tr := hashFailures_same rfl
  have hrem : ∀ x, remDeps a.list a.subset (finished tr) x
      = remDeps a.list a.subset (finished tr ++ [t]) x + edgeCount a.list t x :=
    remDeps_append hts htf
  generalize hs0 : ({ (s.goto w .top).broadcast.setMu none with remaining := s.remaining - 1 } :
    ParallelState) = s0
  have hr0 : s0.ready = s.ready := by subst hs0; rfl
  have hrem0 : s0.remaining = s.remaining - 1 := by subst hs0; rfl
  have hc0 : ∀ x ∈ a.subset, countOf a s0 x = countOf a s x := by
    subst hs0
    exact fun _ _ => rfl
  obtain ⟨hready, hcount⟩ := foldl_releaseDependent_eq ha
    (fun x hx => dependentsOf_lt ha (t := t) hx) hc0
  obtain ⟨pd, rd, hfold⟩ := foldl_releaseDependent (a := a) (dependentsOf a.list t) s0
  have hremaining : ((dependentsOf a.list t).foldl (releaseDependent a) s0).remaining
      = s.remaining - 1 := by
    rw [hfold, ← hrem0]
  generalize (dependentsOf a.list t).foldl (releaseDependent a) s0 = s1 at *
  rw [hr0, Lib.release_queue] at hready
  dsimp only at hready
  have hedges : ∀ x ∈ a.subset,
      ((dependentsOf a.list t).filter (· ∈ a.subset)).count x = edgeCount a.list t x := by
    intro x hx
    rw [List.count_filter (by simpa using hx), ha.linked t x]
  have hrel : ∀ x, x ∈ released (countOf a s) ((dependentsOf a.list t).filter (· ∈ a.subset)) ↔
      x ∈ a.subset ∧ 0 < remDeps a.list a.subset (finished tr) x ∧
        remDeps a.list a.subset (finished tr) x ≤ edgeCount a.list t x := by
    intro x
    rw [Lib.mem_released]
    by_cases hx : x ∈ a.subset
    · rw [hedges x hx, h.pending x hx]
      simp [hx]
    · rw [List.count_eq_zero_of_not_mem (by simp [hx])]
      simp only [hx, false_and, iff_false]
      rintro ⟨h1, h2⟩
      simp at h2
      omega
  constructor
  · rw [hp, hready, ← List.append_assoc, List.nodup_append]
    refine ⟨h.nodup, Lib.nodup_released _ _, ?_⟩
    rintro x hx y hy rfl
    obtain ⟨hxs, hpos, -⟩ := (hrel x).mp hy
    rw [(h.ready_iff x hxs).mpr hx] at hpos
    exact absurd hpos (Nat.lt_irrefl 0)
  · intro x hx
    rw [hp, hready, ← List.append_assoc, List.mem_append] at hx
    rcases hx with hx | hx
    · exact h.sub x hx
    · exact ((hrel x).mp hx).1
  · intro x hx
    rw [hcount x hx, Lib.release_counter, hedges x hx, h.pending x hx, hrem x, hf]
    push_cast
    omega
  · intro x hx
    rw [hf, hp, hready, ← List.append_assoc, List.mem_append, ← h.ready_iff x hx, hrel x, hrem x]
    constructor
    · intro h0
      by_cases hz : edgeCount a.list t x = 0
      · exact .inl (by omega)
      · exact .inr ⟨hx, by omega, by omega⟩
    · rintro (h0 | ⟨-, -, h0⟩) <;> omega
  · have := h.remaining
    rw [hf, hh, hremaining, List.length_append, List.length_singleton]
    push_cast at this ⊢
    omega

end End

/-! ## 6. Every run -/

theorem counts_step (ha : a.Ok) (hl : LockInv a tr s) (hh : HoldInv tr s) (hq : QueueInv a tr s)
    (hs : ParallelStep a s e s') : HoldInv (tr ++ [e]) s' ∧ QueueInv a (tr ++ [e]) s' := by
  cases e with
  | pop w t => exact ⟨hh.pop hq.nodup hs, hq.pop hs⟩
  | hashFailed w t => exact ⟨hh.hashFailed hs, hq.hashFailed hs⟩
  | done w t => exact ⟨hh.done hs, hq.done ha hh hs⟩
  | _ => exact ⟨hh.quiet hl trivial hs, hq.quiet hl trivial hs⟩

/-- **The accounting is right in every run.** -/
theorem counts_run (ha : a.Ok) (h : Run (ParallelStep a) (parallelInit a) tr s) :
    HoldInv tr s ∧ QueueInv a tr s :=
  Run.inv (I := fun tr s => HoldInv tr s ∧ QueueInv a tr s) ⟨holdInv_init, queueInv_init ha⟩
    (fun _ _ _ _ hr hi hs => counts_step ha (lockInv_run hr) hi.1 hi.2 hs) h

end ReproVM
