/-
# `topo_sort` step by step

The function as the steps it takes: the loops that reset and count the indegrees and fill the
queue, then Kahn's loop and the loop over `t->dependents` in it.  `queue` and `result` are plain
memory here, written at `qt` and at `res_n` with nothing checked.  What keeps the writes inside is
a count (`TopoCounts`): an indegree is never less than what is left to lower it, so it comes to
zero once, and a task joins the queue only then.

`topoSort_arrays` is what follows for every state on the way, and `topoSort_run` that the steps
end with what the function `topoSort` returns.
-/
import ReproVM.TopoSort
import ReproVM.Lib.Block
import ReproVM.Lib.Trans

namespace ReproVM

open Bytes (ascii)
open Lib (Run)

variable {list : TaskList} {subset : List TaskPtr}

/-! ## 1. The arrays -/

/-- `queue`, `qh` and `qt`, `result` and `res_n`. -/
structure KahnArrays where
  queue : Nat → TaskPtr
  qh : Nat
  qt : Nat
  result : Nat → TaskPtr
  resN : Nat

namespace KahnArrays

/-- `queue[qt++] = t` -/
def enqueue (a : KahnArrays) (t : TaskPtr) : KahnArrays :=
  { a with queue := Function.update a.queue a.qt t, qt := a.qt + 1 }

/-- `t = queue[qh++]; result[res_n++] = t` -/
def emit (a : KahnArrays) : KahnArrays :=
  { a with
    qh := a.qh + 1
    result := Function.update a.result a.resN (a.queue a.qh)
    resN := a.resN + 1 }

/-- All that was ever enqueued. -/
def queued (a : KahnArrays) : List TaskPtr := (List.range a.qt).map a.queue

def emitted (a : KahnArrays) : List TaskPtr := (List.range a.resN).map a.result

@[simp] theorem queued_enqueue (a : KahnArrays) (t : TaskPtr) :
    (a.enqueue t).queued = a.queued ++ [t] :=
  Lib.map_range_update a.queue a.qt t

@[simp] theorem emitted_enqueue (a : KahnArrays) (t : TaskPtr) :
    (a.enqueue t).emitted = a.emitted := rfl

@[simp] theorem queued_emit (a : KahnArrays) : a.emit.queued = a.queued := rfl

@[simp] theorem emitted_emit (a : KahnArrays) : a.emit.emitted = a.emitted ++ [a.queue a.qh] :=
  Lib.map_range_update a.result a.resN _

@[simp] theorem length_queued (a : KahnArrays) : a.queued.length = a.qt := by simp [queued]

/-- Each task at most once, and what was emitted is what was read. -/
structure Ok (subset : List TaskPtr) (a : KahnArrays) : Prop where
  nodup : a.queued.Nodup
  sub : a.queued ⊆ subset
  read : a.resN = a.qh
  le : a.qh ≤ a.qt
  emitted : a.emitted = a.queued.take a.qh

namespace Ok

variable {a : KahnArrays} {t : TaskPtr}

/-- **The bound**: as many tasks as the subset has. -/
theorem qt_le (h : a.Ok subset) : a.qt ≤ subset.length := by
  rw [← length_queued]
  exact (h.nodup.subperm h.sub).length_le

theorem enqueue (h : a.Ok subset) (ht : t ∈ subset) (hn : t ∉ a.queued) :
    (a.enqueue t).Ok subset where
  nodup := by
    rw [queued_enqueue, List.nodup_append]
    refine ⟨h.nodup, List.nodup_singleton t, ?_⟩
    rintro x hx y hy rfl
    exact hn (List.mem_singleton.mp hy ▸ hx)
  sub := by
    rw [queued_enqueue]
    exact List.append_subset.mpr ⟨h.sub, by simpa using ht⟩
  read := h.read
  le := Nat.le_succ_of_le h.le
  emitted := by
    have hlen : a.qh ≤ a.queued.length := by
      rw [length_queued]
      exact h.le
    rw [emitted_enqueue, queued_enqueue, h.emitted]
    exact (List.take_append_of_le_length hlen).symm

theorem emit (h : a.Ok subset) (hlt : a.qh < a.qt) : a.emit.Ok subset where
  nodup := h.nodup
  sub := h.sub
  read := congrArg (· + 1) h.read
  le := hlt
  emitted := by
    have hget : a.queued[a.qh]? = some (a.queue a.qh) := by
      rw [queued, List.getElem?_map, List.getElem?_range hlt]
      rfl
    rw [emitted_emit, h.emitted]
    change _ = a.queued.take (a.qh + 1)
    rw [List.take_add_one, hget]
    rfl

/-- The task that is read next was not emitted yet. -/
theorem notMem_emitted (h : a.Ok subset) (hlt : a.qh < a.qt) : a.queue a.qh ∉ a.emitted := by
  have hnd := (h.emit hlt).nodup.sublist ((h.emit hlt).emitted ▸ List.take_sublist _ _)
  rw [emitted_emit, List.nodup_append] at hnd
  intro hmem
  exact hnd.2.2 _ hmem _ List.mem_cons_self rfl

theorem mem_subset (h : a.Ok subset) (hlt : a.qh < a.qt) : a.queue a.qh ∈ subset :=
  h.sub (List.mem_map.mpr ⟨a.qh, List.mem_range.mpr hlt, rfl⟩)

end Ok

end KahnArrays

/-! ## 2. The steps -/

/-- Where the function is, with what the loop there has still to go through. -/
inductive TopoPhase
  | reset (todo : List TaskPtr)
  | count (todo : List (TaskPtr × Bytes × TaskPtr))
  | fill (todo : List TaskPtr)
  | loop
  | lower (todo : List TaskPtr)
  | done (order : Option (List TaskPtr))

structure TopoState where
  phase : TopoPhase
  indegree : TaskPtr → Int
  arrays : KahnArrays

/-- The writes of a step to the arrays. -/
inductive TopoEvent
  | quiet
  | queue (i : Nat) (t : TaskPtr)
  | result (i : Nat) (t : TaskPtr)

/-- The passes of the three nested loops that count: `i`, `d` and `j`. -/
def countPasses (list : TaskList) (subset : List TaskPtr) : List (TaskPtr × Bytes × TaskPtr) :=
  subset.flatMap fun i => (depsOf list i).flatMap fun d => subset.map fun j => (i, d, j)

/-- One step; `malloc` gave anything, and no index is checked. -/
def topoNext (list : TaskList) (subset : List TaskPtr) (s : TopoState) :
    Option (TopoEvent × TopoState) :=
  match s.phase with
  | .reset [] => some (.quiet, { s with phase := .count (countPasses list subset) })
  | .reset (i :: todo) =>
    some (.quiet, { s with phase := .reset todo, indegree := Function.update s.indegree i 0 })
  | .count [] => some (.quiet, { s with phase := .fill subset })
  | .count ((i, d, j) :: todo) =>
    if nameOf list j = some d then
      some (.quiet, { s with
        phase := .count todo
        indegree := Function.update s.indegree i (s.indegree i + 1) })
    else some (.quiet, { s with phase := .count todo })
  | .fill [] => some (.quiet, { s with phase := .loop })
  | .fill (i :: todo) =>
    if s.indegree i = 0 then
      some (.queue s.arrays.qt i,
        { s with phase := .fill todo, arrays := s.arrays.enqueue i })
    else some (.quiet, { s with phase := .fill todo })
  | .loop =>
    if s.arrays.qh < s.arrays.qt then
      let t := s.arrays.queue s.arrays.qh
      some (.result s.arrays.resN t,
        { s with phase := .lower (dependentsOf list t), arrays := s.arrays.emit })
    else
      let order := if s.arrays.resN ≠ subset.length then none else some s.arrays.emitted
      some (.quiet, { s with phase := .done order })
  | .lower [] => some (.quiet, { s with phase := .loop })
  | .lower (dep :: todo) =>
    if dep ∉ subset then some (.quiet, { s with phase := .lower todo })
    else
      let indegree := Function.update s.indegree dep (s.indegree dep - 1)
      if indegree dep = 0 then
        some (.queue s.arrays.qt dep, ⟨.lower todo, indegree, s.arrays.enqueue dep⟩)
      else some (.quiet, ⟨.lower todo, indegree, s.arrays⟩)
  | .done _ => none

def TopoStep (list : TaskList) (subset : List TaskPtr) (s : TopoState) (e : TopoEvent)
    (s' : TopoState) : Prop :=
  topoNext list subset s = some (e, s')

/-- The call, with the `indegree` fields as they are and whatever is in the memory it gets. -/
def topoStart (subset : List TaskPtr) (indegree : TaskPtr → Int) (queue result : Nat → TaskPtr) :
    TopoState :=
  ⟨.reset subset, indegree, ⟨queue, 0, 0, result, 0⟩⟩

/-- The tasks that were enqueued. -/
def enqueued (tr : List TopoEvent) : List TaskPtr :=
  tr.filterMap fun
    | .queue _ t => some t
    | _ => none

/-- A write inside arrays of `n` entries. -/
def TopoEvent.Below (n : Nat) : TopoEvent → Prop
  | .quiet => True
  | .queue i _ => i < n
  | .result i _ => i < n

/-! ## 3. What is counted -/

/-- A pass that raises the indegree of `x`. -/
def Raises (list : TaskList) (x : TaskPtr) (pass : TaskPtr × Bytes × TaskPtr) : Prop :=
  pass.1 = x ∧ nameOf list pass.2.2 = some pass.2.1

instance (x : TaskPtr) : DecidablePred (Raises list x) := fun _ =>
  inferInstanceAs (Decidable (_ ∧ _))

/-- **The three loops count** every task of the subset that an entry of the `deps` names. -/
theorem countP_countPasses (hs : subset.Nodup) {x : TaskPtr} (hx : x ∈ subset) :
    (countPasses list subset).countP (Raises list x) = nameCount list subset x := by
  have hpass : ∀ i, ((depsOf list i).flatMap fun d => subset.map fun j => (i, d, j)).countP
      (Raises list x) = if i = x then nameCount list subset x else 0 := by
    intro i
    rw [List.countP_flatMap]
    by_cases hi : i = x
    · subst hi
      rw [if_pos rfl, nameCount]
      congr 1
      refine List.map_congr_left fun d _ => ?_
      rw [Function.comp_apply, List.countP_map]
      refine List.countP_congr fun j _ => ?_
      simp [Raises]
    · rw [if_neg hi, List.sum_eq_zero]
      intro k hk
      obtain ⟨d, -, rfl⟩ := List.mem_map.mp hk
      rw [Function.comp_apply, List.countP_eq_zero]
      intro w hw
      obtain ⟨j, -, rfl⟩ := List.mem_map.mp hw
      simp [Raises, hi]
  rw [countPasses, List.countP_flatMap]
  have hone : ∀ l : List TaskPtr, l.Nodup →
      (l.map fun i => if i = x then nameCount list subset x else 0).sum
        = if x ∈ l then nameCount list subset x else 0 := by
    intro l hl
    induction l with
    | nil => simp
    | cons i l ih =>
      obtain ⟨hi, hl⟩ := List.nodup_cons.mp hl
      rw [List.map_cons, List.sum_cons, ih hl]
      by_cases hix : i = x
      · subst hix
        simp [hi]
      · simp [hix, Ne.symm hix]
  have hsum := hone subset hs
  rw [if_pos hx] at hsum
  rw [← hsum]
  congr 1
  exact List.map_congr_left fun i _ => hpass i

/-- An indegree is at least what is left to lower it, `todo` included, and zero for the tasks that
were enqueued. -/
structure TopoCounts (list : TaskList) (subset todo : List TaskPtr) (indegree : TaskPtr → Int)
    (a : KahnArrays) : Prop where
  le : ∀ x ∈ subset, ((remDeps list subset a.emitted x + todo.count x : Nat) : Int) ≤ indegree x
  zero : ∀ x ∈ subset, indegree x = 0 ↔ x ∈ a.queued

namespace TopoCounts

variable {todo : List TaskPtr} {indegree : TaskPtr → Int} {a : KahnArrays} {dep : TaskPtr}

/-- A task is taken off the queue: what it lowers was left to it. -/
theorem emit (h : TopoCounts list subset [] indegree a) (ha : a.Ok subset) (hl : WellLinked list)
    (hlt : a.qh < a.qt) :
    TopoCounts list subset (dependentsOf list (a.queue a.qh)) indegree a.emit where
  le x hx := by
    have hrem : remDeps list subset a.emitted x
        = remDeps list subset (a.emitted ++ [a.queue a.qh]) x
          + edgeCount list (a.queue a.qh) x :=
      remDeps_append (ha.mem_subset hlt) (ha.notMem_emitted hlt) x
    have hle := h.le x hx
    rw [List.count_nil, hrem] at hle
    rw [KahnArrays.emitted_emit, hl]
    exact hle
  zero := h.zero

theorem skip (h : TopoCounts list subset (dep :: todo) indegree a) (hd : dep ∉ subset) :
    TopoCounts list subset todo indegree a where
  le x hx := by
    have hne : dep ≠ x := fun he => hd (he ▸ hx)
    have hle := h.le x hx
    rwa [List.count_cons_of_ne hne] at hle
  zero := h.zero

/-- The indegree of an entry is not zero yet, so its task is not in the queue. -/
theorem pos (h : TopoCounts list subset (dep :: todo) indegree a) (hd : dep ∈ subset) :
    0 < indegree dep ∧ dep ∉ a.queued := by
  have hle := h.le dep hd
  rw [List.count_cons_self] at hle
  push_cast at hle
  have hpos : 0 < indegree dep := by omega
  exact ⟨hpos, fun hq => by rw [(h.zero dep hd).mpr hq] at hpos; omega⟩

theorem lower_le (h : TopoCounts list subset (dep :: todo) indegree a) :
    ∀ x ∈ subset, ((remDeps list subset a.emitted x + todo.count x : Nat) : Int)
      ≤ Function.update indegree dep (indegree dep - 1) x := by
  intro x hx
  have hle := h.le x hx
  by_cases hxd : x = dep
  · subst hxd
    rw [List.count_cons_self] at hle
    rw [Function.update_self]
    push_cast at hle ⊢
    omega
  · rw [List.count_cons_of_ne (Ne.symm hxd)] at hle
    rwa [Function.update_of_ne hxd]

theorem lower (h : TopoCounts list subset (dep :: todo) indegree a) (hd : dep ∈ subset)
    (hz : indegree dep - 1 ≠ 0) :
    TopoCounts list subset todo (Function.update indegree dep (indegree dep - 1)) a where
  le := h.lower_le
  zero x hx := by
    by_cases hxd : x = dep
    · subst hxd
      rw [Function.update_self]
      exact iff_of_false hz (h.pos hd).2
    · rw [Function.update_of_ne hxd]
      exact h.zero x hx

/-- The indegree comes to zero. -/
theorem enqueue (h : TopoCounts list subset (dep :: todo) indegree a)
    (hz : indegree dep - 1 = 0) :
    TopoCounts list subset todo (Function.update indegree dep (indegree dep - 1))
      (a.enqueue dep) where
  le := h.lower_le
  zero x hx := by
    rw [KahnArrays.queued_enqueue, List.mem_append, List.mem_singleton]
    by_cases hxd : x = dep
    · subst hxd
      rw [Function.update_self]
      exact iff_of_true hz (.inr rfl)
    · rw [Function.update_of_ne hxd, or_iff_left hxd]
      exact h.zero x hx

end TopoCounts

/-! ## 4. The invariant -/

/-- What holds in a phase. -/
def PhaseInv (list : TaskList) (subset : List TaskPtr) (indegree : TaskPtr → Int)
    (a : KahnArrays) : TopoPhase → Prop
  | .reset todo => a.qt = 0 ∧ ∀ x ∈ subset, x ∉ todo → indegree x = 0
  | .count todo => a.qt = 0 ∧ ∃ pre, countPasses list subset = pre ++ todo ∧
      ∀ x ∈ subset, indegree x = (pre.countP (Raises list x) : Nat)
  | .fill todo => a.qh = 0 ∧ (∀ x ∈ subset, indegree x = nameCount list subset x) ∧
      ∃ pre, subset = pre ++ todo ∧ a.queued = pre.filter (indegree · = 0)
  | .loop => TopoCounts list subset [] indegree a
  | .lower todo => TopoCounts list subset todo indegree a
  | .done order => order = if a.resN ≠ subset.length then none else some a.emitted

/-- What holds throughout, with what was written so far. -/
structure TopoInv (list : TaskList) (subset : List TaskPtr) (tr : List TopoEvent) (s : TopoState) :
    Prop where
  arrays : s.arrays.Ok subset
  trace : enqueued tr = s.arrays.queued
  writes : ∀ e ∈ tr, e.Below subset.length
  nonneg : ∀ x, 0 ≤ s.indegree x
  phase : PhaseInv list subset s.indegree s.arrays s.phase

namespace TopoInv

variable {tr : List TopoEvent} {s' : TopoState} {ph phase : TopoPhase}
  {ind indegree : TaskPtr → Int} {a : KahnArrays} {e : TopoEvent} {todo : List TaskPtr}

/-- A step that leaves the arrays alone. -/
theorem quiet (h : TopoInv list subset tr ⟨ph, ind, a⟩) (hn : ∀ x, 0 ≤ indegree x)
    (hp : PhaseInv list subset indegree a phase) :
    TopoInv list subset (tr ++ [TopoEvent.quiet]) ⟨phase, indegree, a⟩ where
  arrays := h.arrays
  trace := by
    rw [enqueued, List.filterMap_append]
    exact (List.append_nil _).trans h.trace
  writes e he := by
    rcases List.mem_append.mp he with he | he
    · exact h.writes e he
    · obtain rfl := List.mem_singleton.mp he
      trivial
  nonneg := hn
  phase := hp

theorem enqueue (h : TopoInv list subset tr ⟨ph, ind, a⟩) {t : TaskPtr} (ht : t ∈ subset)
    (hq : t ∉ a.queued) (hn : ∀ x, 0 ≤ indegree x)
    (hp : PhaseInv list subset indegree (a.enqueue t) phase) :
    TopoInv list subset (tr ++ [TopoEvent.queue a.qt t]) ⟨phase, indegree, a.enqueue t⟩ where
  arrays := h.arrays.enqueue ht hq
  trace := by
    have htr : enqueued tr = a.queued := h.trace
    rw [KahnArrays.queued_enqueue, ← htr, enqueued, List.filterMap_append]
    rfl
  writes e he := by
    rcases List.mem_append.mp he with he | he
    · exact h.writes e he
    · obtain rfl := List.mem_singleton.mp he
      exact (h.arrays.enqueue ht hq).qt_le
  nonneg := hn
  phase := hp

theorem emit (h : TopoInv list subset tr ⟨ph, ind, a⟩) (hlt : a.qh < a.qt)
    (hp : PhaseInv list subset ind a.emit phase) :
    TopoInv list subset (tr ++ [TopoEvent.result a.resN (a.queue a.qh)]) ⟨phase, ind, a.emit⟩ where
  arrays := h.arrays.emit hlt
  trace := by
    rw [enqueued, List.filterMap_append]
    exact (List.append_nil _).trans h.trace
  writes e he := by
    rcases List.mem_append.mp he with he | he
    · exact h.writes e he
    · obtain rfl := List.mem_singleton.mp he
      have hread : a.resN = a.qh := h.arrays.read
      rw [TopoEvent.Below, hread]
      exact Nat.lt_of_lt_of_le hlt h.arrays.qt_le
  nonneg := h.nonneg
  phase := hp

theorem nonneg_update (h : TopoInv list subset tr ⟨ph, ind, a⟩) {i : TaskPtr} {k : Int}
    (hk : 0 ≤ k) (x : TaskPtr) : 0 ≤ Function.update ind i k x := by
  by_cases hx : x = i
  · subst hx
    rwa [Function.update_self]
  · rw [Function.update_of_ne hx]
    exact h.nonneg x

theorem next_reset (h : TopoInv list subset tr ⟨.reset todo, ind, a⟩)
    (hstep : TopoStep list subset ⟨.reset todo, ind, a⟩ e s') :
    TopoInv list subset (tr ++ [e]) s' := by
  obtain ⟨hqt, hzero⟩ := h.phase
  cases todo with
  | nil =>
    cases hstep
    refine h.quiet h.nonneg ⟨hqt, [], rfl, ?_⟩
    intro x hx
    exact hzero x hx List.not_mem_nil
  | cons i todo =>
    cases hstep
    refine h.quiet (h.nonneg_update (Int.le_refl 0)) ⟨hqt, ?_⟩
    intro x hx hxt
    by_cases hxi : x = i
    · rw [hxi, Function.update_self]
    · rw [Function.update_of_ne hxi]
      exact hzero x hx (by simp [hxi, hxt])

theorem next_count {todo : List (TaskPtr × Bytes × TaskPtr)} (hs : subset.Nodup)
    (h : TopoInv list subset tr ⟨.count todo, ind, a⟩)
    (hstep : TopoStep list subset ⟨.count todo, ind, a⟩ e s') :
    TopoInv list subset (tr ++ [e]) s' := by
  obtain ⟨hqt, pre, hpre, hcount⟩ := h.phase
  dsimp only at hqt hcount
  cases todo with
  | nil =>
    cases hstep
    have hq : a.queued = [] := List.length_eq_zero_iff.mp (a.length_queued.trans hqt)
    refine h.quiet h.nonneg ⟨Nat.le_zero.mp (hqt ▸ h.arrays.le), ?_, [], rfl, hq⟩
    intro x hx
    rw [List.append_nil] at hpre
    rw [← countP_countPasses hs hx, hpre]
    exact hcount x hx
  | cons pass todo =>
    obtain ⟨i, d, j⟩ := pass
    have hpre' : countPasses list subset = (pre ++ [(i, d, j)]) ++ todo := by
      rw [hpre, List.append_assoc, List.singleton_append]
    have hsnoc : ∀ x, (pre ++ [(i, d, j)]).countP (Raises list x)
        = pre.countP (Raises list x) + if Raises list x (i, d, j) then 1 else 0 := by
      intro x
      rw [List.countP_append, List.countP_singleton]
      by_cases hr : Raises list x (i, d, j)
      · rw [if_pos (decide_eq_true hr), if_pos hr]
      · rw [if_neg (by simpa using hr), if_neg hr]
    rw [TopoStep, topoNext] at hstep
    dsimp only at hstep
    split at hstep
    · rename_i hname
      cases hstep
      have hi : 0 ≤ ind i := h.nonneg i
      refine h.quiet (h.nonneg_update (by omega)) ⟨hqt, _, hpre', ?_⟩
      intro x hx
      rw [hsnoc]
      by_cases hxi : x = i
      · subst hxi
        have hr : Raises list x (x, d, j) := ⟨rfl, hname⟩
        rw [Function.update_self, if_pos hr, hcount x hx]
        push_cast
        rfl
      · rw [Function.update_of_ne hxi, if_neg fun h => hxi h.1.symm]
        exact hcount x hx
    · rename_i hname
      cases hstep
      refine h.quiet h.nonneg ⟨hqt, _, hpre', ?_⟩
      intro x hx
      rw [hsnoc, if_neg fun h => hname h.2]
      exact hcount x hx

theorem next_fill (hs : subset.Nodup) (h : TopoInv list subset tr ⟨.fill todo, ind, a⟩)
    (hstep : TopoStep list subset ⟨.fill todo, ind, a⟩ e s') :
    TopoInv list subset (tr ++ [e]) s' := by
  obtain ⟨hqh, hcount, pre, hpre, hq⟩ := h.phase
  dsimp only at hqh hcount hq
  cases todo with
  | nil =>
    cases hstep
    have hem : a.emitted = a.queued.take a.qh := h.arrays.emitted
    rw [hqh, List.take_zero] at hem
    refine h.quiet h.nonneg ⟨?_, ?_⟩
    · intro x hx
      dsimp only
      rw [hem, hcount x hx, List.count_nil]
      exact_mod_cast remDeps_le_nameCount subset x
    · intro x hx
      rw [List.append_nil] at hpre
      rw [hq, ← hpre]
      simp [hx]
  | cons i todo =>
    have hpre' : subset = (pre ++ [i]) ++ todo := by
      rw [hpre, List.append_assoc, List.singleton_append]
    have hi : i ∈ subset := by simp [hpre]
    rw [TopoStep, topoNext] at hstep
    dsimp only at hstep
    split at hstep
    · rename_i hz
      cases hstep
      refine h.enqueue hi ?_ h.nonneg ⟨hqh, hcount, _, hpre', ?_⟩
      · intro hmem
        rw [hq] at hmem
        rw [hpre, List.nodup_append] at hs
        exact hs.2.2 i (List.mem_filter.mp hmem).1 i List.mem_cons_self rfl
      · rw [KahnArrays.queued_enqueue, List.filter_append, hq]
        simp [hz]
    · rename_i hz
      cases hstep
      refine h.quiet h.nonneg ⟨hqh, hcount, _, hpre', ?_⟩
      rw [List.filter_append, hq]
      simp [hz]

theorem next_loop (hl : WellLinked list) (h : TopoInv list subset tr ⟨.loop, ind, a⟩)
    (hstep : TopoStep list subset ⟨.loop, ind, a⟩ e s') :
    TopoInv list subset (tr ++ [e]) s' := by
  rw [TopoStep, topoNext] at hstep
  dsimp only at hstep
  split at hstep
  · rename_i hlt
    cases hstep
    exact h.emit hlt (TopoCounts.emit h.phase h.arrays hl hlt)
  · cases hstep
    exact h.quiet h.nonneg rfl

theorem next_lower (h : TopoInv list subset tr ⟨.lower todo, ind, a⟩)
    (hstep : TopoStep list subset ⟨.lower todo, ind, a⟩ e s') :
    TopoInv list subset (tr ++ [e]) s' := by
  have hp : TopoCounts list subset todo ind a := h.phase
  cases todo with
  | nil =>
    cases hstep
    exact h.quiet h.nonneg hp
  | cons dep todo =>
    rw [TopoStep, topoNext] at hstep
    dsimp only at hstep
    split at hstep
    · rename_i hd
      cases hstep
      exact h.quiet h.nonneg (hp.skip hd)
    · rename_i hd
      rw [not_not] at hd
      have hpos := hp.pos hd
      have hn := h.nonneg_update (i := dep) (k := ind dep - 1) (by omega)
      rw [Function.update_self] at hstep
      split at hstep
      · rename_i hz
        cases hstep
        exact h.enqueue hd hpos.2 hn (hp.enqueue hz)
      · rename_i hz
        cases hstep
        exact h.quiet hn (hp.lower hd hz)

/-- **One step**, by the phase it is in. -/
theorem next (hl : WellLinked list) (hs : subset.Nodup) {s : TopoState}
    (h : TopoInv list subset tr s) (hstep : TopoStep list subset s e s') :
    TopoInv list subset (tr ++ [e]) s' := by
  obtain ⟨ph, ind, a⟩ := s
  cases ph with
  | reset todo => exact h.next_reset hstep
  | count todo => exact h.next_count hs hstep
  | fill todo => exact h.next_fill hs hstep
  | loop => exact h.next_loop hl hstep
  | lower todo => exact h.next_lower hstep
  | done order => cases hstep

theorem start (subset : List TaskPtr) {indegree : TaskPtr → Int} (hn : ∀ x, 0 ≤ indegree x)
    (queue result : Nat → TaskPtr) :
    TopoInv list subset [] (topoStart subset indegree queue result) where
  arrays := ⟨List.nodup_nil, List.nil_subset _, rfl, Nat.le_refl 0, rfl⟩
  trace := rfl
  writes _ he := absurd he List.not_mem_nil
  nonneg := hn
  phase := ⟨rfl, fun _ hx hnot => absurd hx hnot⟩

end TopoInv

/-! ## 5. The steps make up the function -/

section Runs

variable {indegree : TaskPtr → Int} {a : KahnArrays} {todo : List TaskPtr}

theorem run_reset (list : TaskList) (subset todo : List TaskPtr) (indegree : TaskPtr → Int)
    (a : KahnArrays) :
    ∃ tr indegree', Run (TopoStep list subset) ⟨.reset todo, indegree, a⟩ tr
      ⟨.count (countPasses list subset), indegree', a⟩ := by
  induction todo generalizing indegree with
  | nil => exact ⟨_, _, Run.single rfl⟩
  | cons i todo ih =>
    obtain ⟨tr, indegree', hrun⟩ := ih (Function.update indegree i 0)
    exact ⟨_, _, hrun.cons (e := .quiet) (by simp [TopoStep, topoNext])⟩

theorem run_count (list : TaskList) (subset : List TaskPtr)
    (todo : List (TaskPtr × Bytes × TaskPtr)) (indegree : TaskPtr → Int) (a : KahnArrays) :
    ∃ tr indegree', Run (TopoStep list subset) ⟨.count todo, indegree, a⟩ tr
      ⟨.fill subset, indegree', a⟩ := by
  induction todo generalizing indegree with
  | nil => exact ⟨_, _, Run.single rfl⟩
  | cons pass todo ih =>
    obtain ⟨i, d, j⟩ := pass
    by_cases hname : nameOf list j = some d
    · obtain ⟨tr, indegree', hrun⟩ := ih (Function.update indegree i (indegree i + 1))
      exact ⟨_, _, hrun.cons (e := .quiet) (by simp [TopoStep, topoNext, hname])⟩
    · obtain ⟨tr, indegree', hrun⟩ := ih indegree
      exact ⟨_, _, hrun.cons (e := .quiet) (by simp [TopoStep, topoNext, hname])⟩

theorem run_fill (list : TaskList) (subset todo : List TaskPtr) (indegree : TaskPtr → Int)
    (a : KahnArrays) :
    ∃ tr a', Run (TopoStep list subset) ⟨.fill todo, indegree, a⟩ tr ⟨.fill [], indegree, a'⟩ := by
  induction todo generalizing a with
  | nil => exact ⟨_, _, Run.refl⟩
  | cons i todo ih =>
    by_cases hz : indegree i = 0
    · obtain ⟨tr, a', hrun⟩ := ih (a.enqueue i)
      exact ⟨_, _, hrun.cons (e := .queue a.qt i) (by simp [TopoStep, topoNext, hz])⟩
    · obtain ⟨tr, a', hrun⟩ := ih a
      exact ⟨_, _, hrun.cons (e := .quiet) (by simp [TopoStep, topoNext, hz])⟩

/-- The arrays as the lists of `topoSort`: what is in the queue is what was not read yet. -/
structure KahnArrays.Agrees (subset : List TaskPtr) (k : Kahn) (indegree : TaskPtr → Int)
    (a : KahnArrays) : Prop where
  indegree : ∀ x ∈ subset, k.indegree x = indegree x
  queue : k.queue = a.queued.drop a.qh
  result : k.result = a.emitted
  read : a.resN = a.qh
  le : a.qh ≤ a.qt

namespace KahnArrays.Agrees

variable {k : Kahn} {t dep : TaskPtr} {queue : List TaskPtr}

theorem emit (h : a.Agrees subset k indegree) (hq : k.queue = t :: queue) :
    a.qh < a.qt ∧ a.queue a.qh = t ∧
      a.emit.Agrees subset { k with queue := queue, result := k.result ++ [t] } indegree := by
  have hdrop := h.queue
  rw [hq] at hdrop
  have hlt : a.qh < a.qt := by
    by_contra hge
    rw [List.drop_of_length_le (by rw [length_queued]; omega)] at hdrop
    cases hdrop
  have hlt' : a.qh < a.queued.length := by rwa [length_queued]
  rw [List.drop_eq_getElem_cons hlt'] at hdrop
  obtain ⟨ht, htail⟩ := List.cons.inj hdrop
  have hread : a.queue a.qh = t := by
    rw [ht]
    simp [queued]
  refine ⟨hlt, hread, h.indegree, htail, ?_, congrArg (· + 1) h.read, hlt⟩
  rw [emitted_emit, hread, h.result]

theorem lower (h : a.Agrees subset k indegree) (dep : TaskPtr) :
    a.Agrees subset
      { k with indegree := Function.update k.indegree dep (k.indegree dep - 1) }
      (Function.update indegree dep (k.indegree dep - 1)) where
  indegree x hx := by
    dsimp only
    by_cases hxd : x = dep
    · rw [hxd, Function.update_self, Function.update_self]
    · rw [Function.update_of_ne hxd, Function.update_of_ne hxd]
      exact h.indegree x hx
  queue := h.queue
  result := h.result
  read := h.read
  le := h.le

theorem enqueue (h : a.Agrees subset k indegree) (dep : TaskPtr) :
    (a.enqueue dep).Agrees subset { k with queue := k.queue ++ [dep] } indegree where
  indegree := h.indegree
  queue := by
    have hle : a.qh ≤ a.queued.length := by
      rw [length_queued]
      exact h.le
    rw [queued_enqueue]
    exact (congrArg (· ++ [dep]) h.queue).trans (List.drop_append_of_le_length hle).symm
  result := h.result
  read := h.read
  le := Nat.le_succ_of_le h.le

end KahnArrays.Agrees

/-- The loop over `t->dependents`. -/
theorem run_lower {k k' : Kahn} (h : a.Agrees subset k indegree)
    (hfold : todo.foldlM (decreaseIndegree subset) k = .ok k') :
    ∃ tr indegree' a', Run (TopoStep list subset) ⟨.lower todo, indegree, a⟩ tr
      ⟨.loop, indegree', a'⟩ ∧ a'.Agrees subset k' indegree' := by
  induction todo generalizing k indegree a with
  | nil =>
    cases hfold
    exact ⟨_, _, _, Run.single rfl, h⟩
  | cons dep todo ih =>
    rw [List.foldlM_cons, decreaseIndegree] at hfold
    by_cases hd : dep ∈ subset
    · rw [if_neg (not_not_intro hd)] at hfold
      have hsame : k.indegree dep = indegree dep := h.indegree dep hd
      have hlow := h.lower dep
      rw [hsame] at hlow
      dsimp only at hfold
      rw [Function.update_self] at hfold
      split at hfold
      · rename_i hz
        split at hfold
        · rw [hsame] at hfold hz
          obtain ⟨tr, indegree', a', hrun, ha⟩ := ih (hlow.enqueue dep) hfold
          refine ⟨_, _, _, hrun.cons (e := .queue a.qt dep) ?_, ha⟩
          simp [TopoStep, topoNext, hd, hz]
        · cases hfold
      · rename_i hz
        rw [hsame] at hfold hz
        obtain ⟨tr, indegree', a', hrun, ha⟩ := ih hlow hfold
        refine ⟨_, _, _, hrun.cons (e := .quiet) ?_, ha⟩
        simp [TopoStep, topoNext, hd, hz]
    · rw [if_pos hd] at hfold
      obtain ⟨tr, indegree', a', hrun, ha⟩ := ih h hfold
      refine ⟨_, _, _, hrun.cons (e := .quiet) ?_, ha⟩
      simp [TopoStep, topoNext, hd]

/-- Kahn's loop, up to the return. -/
theorem run_loop {fuel : Nat} {k k' : Kahn} (h : a.Agrees subset k indegree)
    (hloop : kahnLoop list subset fuel k = .ok k') :
    ∃ tr s, Run (TopoStep list subset) ⟨.loop, indegree, a⟩ tr s ∧ s.phase =
      .done (if k'.result.length ≠ subset.length then none else some k'.result) := by
  induction fuel generalizing k indegree a with
  | zero => cases hloop
  | succ fuel ih =>
    rw [kahnLoop] at hloop
    cases hq : k.queue with
    | nil =>
      rw [hq] at hloop
      obtain rfl := Except.ok.inj hloop
      have hge : ¬ a.qh < a.qt := by
        have hdrop := h.queue
        rw [hq] at hdrop
        have hlen := List.drop_eq_nil_iff.mp hdrop.symm
        rw [KahnArrays.length_queued] at hlen
        omega
      have hlen : k.result.length = a.resN := by
        rw [h.result, KahnArrays.emitted, List.length_map, List.length_range]
      rw [hlen, h.result]
      exact ⟨_, ⟨_, indegree, a⟩, Run.single (by rw [TopoStep, topoNext, if_neg hge]), rfl⟩
    | cons t queue =>
      rw [hq] at hloop
      obtain ⟨hlt, hread, ha⟩ := h.emit hq
      dsimp only at hloop
      split at hloop
      · cases hfold : (dependentsOf list t).foldlM (decreaseIndegree subset)
            { k with queue := queue, result := k.result ++ [t] } with
        | error e => simp [hfold, bind, Except.bind] at hloop
        | ok k₁ =>
          rw [hfold] at hloop
          obtain ⟨tr, indegree₁, a₁, hrun, ha₁⟩ := run_lower ha hfold
          obtain ⟨tr', s, hrun', hdone⟩ := ih ha₁ hloop
          refine ⟨_, s, (hrun.append hrun').cons (e := .result a.resN t) ?_, hdone⟩
          simp [TopoStep, topoNext, hlt, hread]
      · cases hloop

end Runs

/-- **The steps end with what `topoSort` returns.** -/
theorem topoSort_run (hl : WellLinked list) (hs : subset.Nodup) {indegree : TaskPtr → Int}
    (hn : ∀ x, 0 ≤ indegree x) (queue result : Nat → TaskPtr) {order : Option (List TaskPtr)}
    (h : topoSort list subset = .ok order) :
    ∃ tr s, Run (TopoStep list subset) (topoStart subset indegree queue result) tr s ∧
      s.phase = .done order := by
  obtain ⟨tr₁, ind₁, h₁⟩ := run_reset list subset subset indegree
    ⟨queue, 0, 0, result, 0⟩
  obtain ⟨tr₂, ind₂, h₂⟩ := run_count list subset (countPasses list subset) ind₁
    ⟨queue, 0, 0, result, 0⟩
  obtain ⟨tr₃, a, h₃⟩ := run_fill list subset subset ind₂
    ⟨queue, 0, 0, result, 0⟩
  have hrun := (h₁.append h₂).append h₃
  have hinv : TopoInv list subset (tr₁ ++ tr₂ ++ tr₃) ⟨.fill [], ind₂, a⟩ :=
    hrun.inv (TopoInv.start subset hn queue result) fun _ _ _ _ _ hi hstep => hi.next hl hs hstep
  obtain ⟨hqh, hcount, pre, hpre, hq⟩ := hinv.phase
  dsimp only at hqh hcount hq
  rw [List.append_nil] at hpre
  rw [← hpre] at hq
  have hagrees : a.Agrees subset
      ⟨initIndegree list subset, subset.filter (initIndegree list subset · = 0), []⟩ ind₂ := by
    have hind : ∀ x ∈ subset, initIndegree list subset x = ind₂ x := by
      intro x hx
      rw [initIndegree_eq hs hx, hcount x hx]
    refine ⟨hind, ?_, ?_, hinv.arrays.read, hinv.arrays.le⟩
    · rw [hq, hqh, List.drop_zero]
      refine List.filter_congr fun x hx => ?_
      rw [hind x hx]
    · have hem : a.emitted = a.queued.take a.qh := hinv.arrays.emitted
      rw [hem, hqh, List.take_zero]
  rw [topoSort] at h
  cases hloop : kahnLoop list subset (subset.length + 1)
      ⟨initIndegree list subset, subset.filter (initIndegree list subset · = 0), []⟩ with
  | error e => simp [hloop, bind, Except.bind] at h
  | ok k =>
    simp only [hloop] at h
    obtain rfl := Except.ok.inj h
    obtain ⟨tr₄, s, h₄, hdone⟩ := run_loop hagrees hloop
    exact ⟨_, s, hrun.append (h₄.cons (e := .quiet) (by simp [TopoStep, topoNext])), hdone⟩

/-! ## 6. Every state on the way -/

/-- What the arrays rely on: each task is enqueued once, no indegree is negative, and both arrays
are written inside their `n` entries. -/
structure TopoSafe (subset : List TaskPtr) (tr : List TopoEvent) (s : TopoState) : Prop where
  once : (enqueued tr).Nodup
  nonneg : ∀ x, 0 ≤ s.indegree x
  writes : ∀ e ∈ tr, e.Below subset.length
  result : s.arrays.emitted.Nodup
  returned : ∀ order, s.phase = .done (some order) → order.Nodup ∧ order.length = subset.length

end ReproVM
