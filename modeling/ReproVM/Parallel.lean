/-
# The parallel executor as a transition system

`execute_tasks_parallel` and `worker_main`: any number of workers, the mutex `mu`, the condition
variable, the ready queue, and the counters under the mutex.  A step is what one thread does
between two points where another can come in between: taking `mu` (which blocks while anyone
holds it, the thread itself included), a critical section up to its unlock or its wait, or one of
the four parts of running a task: hashing it, looking it up in the cache, running its command,
writing its record.  How these four end is up to the step.

`print_mu` is only taken under `mu`, so nobody ever waits for it; it has no steps of its own.
-/
import ReproVM.Task

namespace ReproVM

/-! ## 1. The state -/

/-- Where a worker stands. -/
inductive Pc
  | unborn
  /-- at the lock at the head of the loop -/
  | top
  /-- in the critical section there -/
  | look
  /-- in `pthread_cond_wait`, not woken -/
  | waiting
  /-- woken, has to take `mu` again -/
  | woken
  /-- running a task: at `compute_task_hash`, or at a part of `execute_task` -/
  | hash (t : TaskPtr)
  | lookup (t : TaskPtr)
  | command (t : TaskPtr)
  | record (t : TaskPtr)
  /-- at the lock after `compute_task_hash` failed, and behind it -/
  | lockHashFailed (t : TaskPtr)
  | hashFailed (t : TaskPtr)
  /-- at the lock after `execute_task` failed, and behind it -/
  | lockFailed (t : TaskPtr)
  | failed (t : TaskPtr)
  /-- at the lock "after completion", and behind it -/
  | lockDone (t : TaskPtr)
  | done (t : TaskPtr)
  | exited
deriving DecidableEq

/-- The task a worker has taken off the queue and not finished. -/
def Pc.task : Pc → Option TaskPtr
  | .hash t | .lookup t | .command t | .record t | .lockHashFailed t | .hashFailed t
  | .lockFailed t | .failed t | .lockDone t | .done t => some t
  | _ => none

/-- Where the thread that called `execute_tasks_parallel` stands. -/
inductive MainPc
  /-- creating worker `i`; at its lock when there are no more -/
  | spawn (i : Nat)
  | broadcast
  /-- joining worker `i` -/
  | join (i : Nat)
deriving DecidableEq

inductive Thread
  | main
  | worker (w : Nat)
deriving DecidableEq

/-- The arguments of `execute_tasks_parallel`, with the list the tasks come from. -/
structure ParallelArgs where
  list : TaskList
  subset : List TaskPtr
  workers : Nat

/-- `parallel_ctx_t`, the threads, and the `status` fields of the tasks. -/
structure ParallelState where
  pc : Nat → Pc
  main : MainPc
  mu : Option Thread
  pendingDeps : Nat → Int
  remaining : Int
  failed : Bool
  ready : List TaskPtr
  status : TaskPtr → TaskStatus

/-! ## 2. The functions on the context -/

def findTaskIndex (list : TaskList) (tasks : List TaskPtr) (name : Bytes) : Option Nat :=
  tasks.findIdx? fun t => nameOf list t = some name

/-- The initial count for a task: its entries in `deps` that name a task of the subset. -/
def pendingCount (a : ParallelArgs) (t : TaskPtr) : Nat :=
  (depsOf a.list t).countP fun d => (findTaskIndex a.list a.subset d).isSome

/-- The context before the workers are created. -/
def parallelInit (a : ParallelArgs) : ParallelState where
  pc _ := .unborn
  main := .spawn 0
  mu := none
  pendingDeps i := (a.subset[i]?.map fun t => (pendingCount a t : Int)).getD 0
  remaining := a.subset.length
  failed := false
  ready := a.subset.filter fun t => pendingCount a t = 0
  status _ := .pending

/-- One entry of `t->dependents` after completion. -/
def releaseDependent (a : ParallelArgs) (s : ParallelState) (dep : TaskPtr) : ParallelState :=
  match (nameOf a.list dep).bind (findTaskIndex a.list a.subset) with
  | none => s
  | some idx =>
    let pendingDeps := Function.update s.pendingDeps idx (s.pendingDeps idx - 1)
    if pendingDeps idx = 0 then { s with pendingDeps := pendingDeps, ready := s.ready ++ [dep] }
    else { s with pendingDeps := pendingDeps }

/-- `pthread_cond_broadcast`. -/
def ParallelState.broadcast (s : ParallelState) : ParallelState :=
  { s with pc := fun w => if s.pc w = .waiting then .woken else s.pc w }

def ParallelState.goto (s : ParallelState) (w : Nat) (pc : Pc) : ParallelState :=
  { s with pc := Function.update s.pc w pc }

def ParallelState.setStatus (s : ParallelState) (t : TaskPtr) (st : TaskStatus) : ParallelState :=
  { s with status := Function.update s.status t st }

def ParallelState.setMu (s : ParallelState) (mu : Option Thread) : ParallelState :=
  { s with mu := mu }

/-! ## 3. Steps -/

inductive ParallelEvent
  /-- the main thread: `pthread_create`, its lock, its broadcast, `pthread_join` -/
  | spawn
  | mainLock
  | mainBroadcast
  | join
  /-- worker `w` takes `mu` -/
  | lock (w : Nat)
  /-- the ways out of the critical section at the head of the loop -/
  | wait (w : Nat)
  | exit (w : Nat)
  | retry (w : Nat)
  | pop (w : Nat) (t : TaskPtr)
  /-- the parts of running a task, and how they end -/
  | hash (w : Nat) (t : TaskPtr) (ok : Bool)
  | lookup (w : Nat) (t : TaskPtr) (hit : Bool)
  | command (w : Nat) (t : TaskPtr) (ok : Bool)
  | record (w : Nat) (t : TaskPtr) (ok : Bool)
  /-- the other critical sections -/
  | hashFailed (w : Nat) (t : TaskPtr)
  | failed (w : Nat) (t : TaskPtr)
  | done (w : Nat) (t : TaskPtr)
  /-- a wakeup without a signal -/
  | spurious (w : Nat)
deriving DecidableEq

/-- Where a worker stands once it has `mu`, from where it waits for it. -/
def Pc.locked : Pc → Option Pc
  | .top => some .look
  | .woken => some .look
  | .lockHashFailed t => some (.hashFailed t)
  | .lockFailed t => some (.failed t)
  | .lockDone t => some (.done t)
  | _ => none

/-- One step; `none` where the event cannot happen. -/
def parallelStep (a : ParallelArgs) (s : ParallelState) : ParallelEvent → Option ParallelState
  | .spawn =>
    match s.main with
    | .spawn i =>
      if i < a.workers then some { s.goto i .top with main := .spawn (i + 1) } else none
    | _ => none
  | .mainLock =>
    if s.main = .spawn a.workers ∧ s.mu = none then
      some { s.setMu (some .main) with main := .broadcast }
    else none
  | .mainBroadcast =>
    if s.main = .broadcast then some { s.broadcast.setMu none with main := .join 0 } else none
  | .join =>
    match s.main with
    | .join i =>
      if i < a.workers ∧ s.pc i = .exited then some { s with main := .join (i + 1) } else none
    | _ => none
  | .lock w =>
    if s.mu = none then
      (s.pc w).locked.map fun pc => (s.goto w pc).setMu (some (.worker w))
    else none
  | .wait w =>
    if s.pc w = .look ∧ s.ready = [] ∧ 0 < s.remaining then
      some ((s.goto w .waiting).setMu none)
    else none
  | .exit w =>
    if s.pc w = .look ∧ s.ready = [] ∧ s.remaining = 0 then
      some ((s.goto w .exited).setMu none)
    else none
  | .retry w =>
    -- `pop_ready` gives NULL
    if s.pc w = .look ∧ s.ready = [] ∧ s.remaining < 0 then some ((s.goto w .top).setMu none)
    else none
  | .pop w t =>
    match s.ready with
    | [] => none
    | u :: rest =>
      if s.pc w = .look ∧ u = t then
        some ({ ((s.goto w (.hash t)).setMu none).setStatus t .running with ready := rest })
      else none
  | .hash w t ok =>
    if s.pc w = .hash t then
      some (if ok then s.goto w (.lookup t)
        else (s.goto w (.lockHashFailed t)).setStatus t .failed)
    else none
  | .lookup w t hit =>
    if s.pc w = .lookup t then
      some (if hit then (s.goto w (.lockDone t)).setStatus t .skipped else s.goto w (.command t))
    else none
  | .command w t ok =>
    if s.pc w = .command t then
      some (if ok then s.goto w (.record t)
        else (s.goto w (.lockFailed t)).setStatus t .failed)
    else none
  | .record w t ok =>
    if s.pc w = .record t then
      some (if ok then (s.goto w (.lockDone t)).setStatus t .success
        else (s.goto w (.lockFailed t)).setStatus t .failed)
    else none
  | .hashFailed w t =>
    if s.pc w = .hashFailed t then
      some ({ (s.goto w .top).broadcast.setMu none with
        failed := true, remaining := s.remaining - 1 })
    else none
  | .failed w t =>
    -- goes on to the lock "after completion" without an unlock
    if s.pc w = .failed t then some { s.goto w (.lockDone t) with failed := true } else none
  | .done w t =>
    if s.pc w = .done t then
      some ((dependentsOf a.list t).foldl (releaseDependent a)
        { (s.goto w .top).broadcast.setMu none with remaining := s.remaining - 1 })
    else none
  | .spurious w => if s.pc w = .waiting then some (s.goto w .woken) else none

/-- The step relation. -/
def ParallelStep (a : ParallelArgs) (s : ParallelState) (e : ParallelEvent) (s' : ParallelState) :
    Prop :=
  parallelStep a s e = some s'

/-- Something other than a spurious wakeup can happen. -/
def Enabled (a : ParallelArgs) (s : ParallelState) : Prop :=
  ∃ e s', ParallelStep a s e s' ∧ ∀ w, e ≠ .spurious w

end ReproVM
