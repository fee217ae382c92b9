/-
# From targets to an order: `collect_needed_tasks` and `topo_sort`

`collect_dfs` walks the dependencies of a target and appends a task to the array `out` after its
dependencies.  The array is a heap block that every frame has its own pointer to: when a frame
lets `realloc` grow it and the block moves, the pointers of its callers are stale.  `topo_sort`
is Kahn's algorithm on the array that results.

The recursion takes a bound on its depth, since it need not end.  Which calls of `realloc` move
the block is up to the allocator, a parameter `moves` of the capacity that is outgrown.
-/
import ReproVM.Lib.Countdown
import ReproVM.Task

namespace ReproVM

/-! ## 1. `collect_needed_tasks` -/

/-- The array `out` with `*n` and `*cap`: the block it is in now and the pointers in it. -/
structure OutArray where
  block : Nat
  tasks : List TaskPtr
  cap : Nat
deriving DecidableEq

/-- `out[(*n)++] = t`, with the `realloc` before it when the array is full.  `out` is the block
of the frame that appends. -/
def appendOut (moves : Nat → Bool) (out : Nat) (a : OutArray) (t : TaskPtr) : Except Fault OutArray :=
  if out ≠ a.block then .error .useAfterFree
  else if a.cap ≤ a.tasks.length then
    .ok { block := if moves a.cap then a.block + 1 else a.block, tasks := a.tasks ++ [t],
          cap := a.cap * 2 }
  else .ok { a with tasks := a.tasks ++ [t] }

def collectDfs (moves : Nat → Bool) (master : TaskList) :
    Nat → TaskPtr → Nat → OutArray → Except Fault OutArray
  | 0, _, _, _ => .error .outOfFuel
  | fuel + 1, t, out, a =>
    -- the guard reads out[0 .. *n]
    if a.tasks ≠ [] ∧ out ≠ a.block then .error .useAfterFree
    else if t ∈ a.tasks then .ok a
    else do
      let a ← (depsOf master t).foldlM
        (fun a d =>
          match findTask master d with
          | some dep => collectDfs moves master fuel dep out a
          | none => .ok a)
        a
      appendOut moves out a t

/-- The tasks the walk starts from: all of them when no target is named, else the known ones. -/
def startTasks (list : TaskList) (targetNames : List Bytes) : List TaskPtr :=
  if targetNames = [] then List.range list.length else targetNames.filterMap (findTask list)

/-- The caller reads the result through the pointer `malloc` gave, block 0. -/
def collectNeededTasks (moves : Nat → Bool) (fuel : Nat) (list : TaskList)
    (targetNames : List Bytes) : Except Fault (List TaskPtr) := do
  let a ← (startTasks list targetNames).foldlM
    (fun a t => collectDfs moves list fuel t 0 a) ⟨0, [], 16⟩
  if a.tasks ≠ [] ∧ a.block ≠ 0 then .error .useAfterFree else .ok a.tasks

/-! ## 2. `topo_sort` -/

/-- The `indegree` fields after the counting loops. -/
def initIndegree (list : TaskList) (subset : List TaskPtr) : TaskPtr → Int :=
  subset.foldl
    (fun indegree i =>
      (depsOf list i).foldl
        (fun indegree d =>
          subset.foldl
            (fun indegree j =>
              if nameOf list j = some d then
                Function.update indegree i (indegree i + 1)
              else indegree)
            indegree)
        indegree)
    fun _ => 0

/-- The state of Kahn's loop: the `indegree` fields, `queue[qh .. qt]` and `result`.  As many
slots of `queue` were read as `result` has. -/
structure Kahn where
  indegree : TaskPtr → Int
  queue : List TaskPtr
  result : List TaskPtr

/-- One entry of `t->dependents`; both arrays have room for `n` pointers. -/
def decreaseIndegree (subset : List TaskPtr) (s : Kahn) (dep : TaskPtr) : Except Fault Kahn :=
  if dep ∉ subset then .ok s
  else
    let indegree := Function.update s.indegree dep (s.indegree dep - 1)
    if indegree dep = 0 then
      if s.result.length + s.queue.length < subset.length then
        .ok { s with indegree := indegree, queue := s.queue ++ [dep] }
      else .error .bufferOverflow
    else .ok { s with indegree := indegree }

/-- The loop `while (qh < qt)`. -/
def kahnLoop (list : TaskList) (subset : List TaskPtr) : Nat → Kahn → Except Fault Kahn
  | 0, _ => .error .outOfFuel
  | fuel + 1, s =>
    match s.queue with
    | [] => .ok s
    | t :: queue =>
      if s.result.length < subset.length then do
        let s ← (dependentsOf list t).foldlM (decreaseIndegree subset)
          { s with queue := queue, result := s.result ++ [t] }
        kahnLoop list subset fuel s
      else .error .bufferOverflow

/-- NULL is `none`. -/
def topoSort (list : TaskList) (subset : List TaskPtr) : Except Fault (Option (List TaskPtr)) := do
  let indegree := initIndegree list subset
  let s ← kahnLoop list subset (subset.length + 1)
    { indegree := indegree, queue := subset.filter (indegree · = 0), result := [] }
  return if s.result.length ≠ subset.length then none else some s.result

/-! ## 3. As composed in `main` -/

/-- How the planning half of `main` ends. -/
inductive Plan
  | noTasks
  | cycle
  | sorted (order : List TaskPtr)
deriving DecidableEq

/-- `main` from the manifest's content to the sorted array. -/
def plan (moves : Nat → Bool) (fuel : Nat) (manifest : Bytes) (targets : List Bytes) :
    Except Fault Plan := do
  let list := parseManifest manifest
  let needed ← collectNeededTasks moves fuel list targets
  if needed = [] then return .noTasks
  match ← topoSort list needed with
  | none => return .cycle
  | some sorted => return .sorted sorted

end ReproVM
