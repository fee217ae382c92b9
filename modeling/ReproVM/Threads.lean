/-
# The parallel executor, statement by statement

`Parallel` takes a critical section as one step.  Here a step is one statement of
`execute_tasks_parallel` or `worker_main`: one write to the context, one call of `push_ready` or
`pop_ready`, one broadcast, one lock or unlock.  The ready queue is in cells that `push_ready`
allocates and `pop_ready` frees, and what `malloc` returns is up to the step; to follow a pointer
to what is not a live cell is a fault.  `print_mu` is a mutex like `mu`.

The call begins behind its test for an empty subset.
-/
import ReproVM.Lib.LinkedQueue
import ReproVM.ParallelNames

namespace ReproVM

open Lib (LinkedQueue)

/-! ## 1. The state -/

/-- The statement a worker is at. -/
inductive WorkerPc
  | unborn
  /-- the lock at the head of the loop -/
  | top
  /-- the test of the inner loop -/
  | look
  /-- in `pthread_cond_wait`, not woken, and woken -/
  | waiting
  | woken
  /-- the unlock before `break` -/
  | leaving
  /-- the unlock behind `pop_ready`, with what it returned -/
  | unlock (t : Option TaskPtr)
  /-- `t->status = STATUS_RUNNING` -/
  | start (t : TaskPtr)
  | hash (t : TaskPtr)
  /-- the statements after `compute_task_hash` failed -/
  | noHash (t : TaskPtr)
  | lockHashFailed (t : TaskPtr)
  | hashFailed (t : TaskPtr)
  | hashRemaining (t : TaskPtr)
  | hashWake (t : TaskPtr)
  | hashUnlock (t : TaskPtr)
  /-- the parts of `execute_task` -/
  | lookup (t : TaskPtr)
  | command (t : TaskPtr)
  | record (t : TaskPtr)
  /-- the statements after it failed -/
  | noExec (t : TaskPtr)
  | lockFailed (t : TaskPtr)
  | failed (t : TaskPtr)
  /-- the statements "after completion" -/
  | lockDone (t : TaskPtr)
  | done (t : TaskPtr)
  | lockPrint (t : TaskPtr)
  | printing (t : TaskPtr)
  /-- the body of the loop over `t->dependents` -/
  | release (t : TaskPtr) (i : Nat)
  | push (t : TaskPtr) (i : Nat)
  | wake (t : TaskPtr) (i : Nat)
  | wakeAll (t : TaskPtr)
  | unlockDone (t : TaskPtr)
  | exited
deriving DecidableEq

/-- The statement the thread that called `execute_tasks_parallel` is at. -/
inductive CallerPc
  /-- the count for a task, and the `push_ready` after it -/
  | count (i : Nat)
  | push (i : Nat)
  /-- creating worker `i`; the lock when there are no more -/
  | spawn (i : Nat)
  | broadcast
  | unlock
  /-- joining worker `i` -/
  | join (i : Nat)
  /-- the loop that frees the queue, at `cur` -/
  | drain (cur : Option Nat)
  | returned (r : Nat)
deriving DecidableEq

/-- `parallel_ctx_t`, the threads, and the `status` fields. -/
structure Threads where
  pc : Nat → WorkerPc
  main : CallerPc
  mu : Option Thread
  printMu : Option Thread
  pendingDeps : Nat → Int
  remaining : Int
  failed : Bool
  queue : LinkedQueue TaskPtr
  status : TaskPtr → TaskStatus

/-- The context before the counts: `memset`, `calloc` and the first assignments. -/
def threadsInit (a : ParallelArgs) : Threads where
  pc _ := .unborn
  main := .count 0
  mu := none
  printMu := none
  pendingDeps _ := 0
  remaining := a.subset.length
  failed := false
  queue := .empty
  status _ := .pending

namespace Threads

def goto (s : Threads) (w : Nat) (pc : WorkerPc) : Threads :=
  { s with pc := Function.update s.pc w pc }

def setStatus (s : Threads) (t : TaskPtr) (st : TaskStatus) : Threads :=
  { s with status := Function.update s.status t st }

def broadcast (s : Threads) : Threads :=
  { s with pc := fun w => if s.pc w = .waiting then .woken else s.pc w }

end Threads

/-! ## 2. Steps -/

inductive ThreadsResult
  /-- the thread cannot take the step -/
  | blocked
  | fault
  | next (s : Threads)

/-- The next statement of worker `w`.  Where a part of running a task ends, `ok` says how; where
`malloc` is called, it returns `p`. -/
def workerStep (a : ParallelArgs) (s : Threads) (w : Nat) (ok : Bool) (p : Nat) : ThreadsResult :=
  let lock (pc : WorkerPc) : ThreadsResult :=
    if s.mu = none then .next { s.goto w pc with mu := some (.worker w) } else .blocked
  match s.pc w with
  | .unborn | .waiting | .exited => .blocked
  | .top | .woken => lock .look
  | .look =>
    if s.queue.head = none ∧ 0 < s.remaining then .next { s.goto w .waiting with mu := none }
    else if s.queue.head = none ∧ s.remaining = 0 then .next (s.goto w .leaving)
    else
      match s.queue.pop with
      | none => .fault
      | some (t, queue) => .next { s.goto w (.unlock t) with queue := queue }
  | .leaving => .next { s.goto w .exited with mu := none }
  | .unlock none => .next { s.goto w .top with mu := none }
  | .unlock (some t) => .next { s.goto w (.start t) with mu := none }
  | .start t => .next ((s.goto w (.hash t)).setStatus t .running)
  | .hash t => .next (s.goto w (if ok then .lookup t else .noHash t))
  | .noHash t => .next ((s.goto w (.lockHashFailed t)).setStatus t .failed)
  | .lockHashFailed t => lock (.hashFailed t)
  | .hashFailed t => .next { s.goto w (.hashRemaining t) with failed := true }
  | .hashRemaining t => .next { s.goto w (.hashWake t) with remaining := s.remaining - 1 }
  | .hashWake t => .next (s.broadcast.goto w (.hashUnlock t))
  | .hashUnlock _ => .next { s.goto w .top with mu := none }
  | .lookup t =>
    .next (if ok then (s.goto w (.lockDone t)).setStatus t .skipped else s.goto w (.command t))
  | .command t =>
    .next (if ok then s.goto w (.record t) else (s.goto w (.noExec t)).setStatus t .failed)
  | .record t =>
    .next (if ok then (s.goto w (.lockDone t)).setStatus t .success
      else (s.goto w (.noExec t)).setStatus t .failed)
  | .noExec t => .next ((s.goto w (.lockFailed t)).setStatus t .failed)
  | .lockFailed t => lock (.failed t)
  | .failed t => .next { s.goto w (.lockDone t) with failed := true }
  | .lockDone t => lock (.done t)
  | .done t => .next { s.goto w (.lockPrint t) with remaining := s.remaining - 1 }
  | .lockPrint t =>
    if s.printMu = none then .next { s.goto w (.printing t) with printMu := some (.worker w) }
    else .blocked
  | .printing t => .next { s.goto w (.release t 0) with printMu := none }
  | .release t i =>
    match (dependentsOf a.list t)[i]? with
    | none => .next (s.goto w (.wakeAll t))
    | some dep =>
      match (nameOf a.list dep).bind (findTaskIndex a.list a.subset) with
      | none => .next (s.goto w (.release t (i + 1)))
      | some idx =>
        let pendingDeps := Function.update s.pendingDeps idx (s.pendingDeps idx - 1)
        .next { s.goto w (if pendingDeps idx = 0 then .push t i else .release t (i + 1)) with
          pendingDeps := pendingDeps }
  | .push t i =>
    match (dependentsOf a.list t)[i]? with
    | none => .fault
    | some dep =>
      -- `malloc` gives what is not in use
      if s.queue.mem p ≠ none then .blocked
      else
        match s.queue.push p dep with
        | none => .fault
        | some queue => .next { s.goto w (.wake t i) with queue := queue }
  | .wake t i => .next (s.broadcast.goto w (.release t (i + 1)))
  | .wakeAll t => .next (s.broadcast.goto w (.unlockDone t))
  | .unlockDone _ => .next { s.goto w .top with mu := none }

/-- The next statement of the thread that called. -/
def callerStep (a : ParallelArgs) (s : Threads) (p : Nat) : ThreadsResult :=
  match s.main with
  | .count i =>
    match a.subset[i]? with
    | none => .next { s with main := .spawn 0 }
    | some t =>
      .next { s with
        pendingDeps := Function.update s.pendingDeps i (pendingCount a t)
        main := if pendingCount a t = 0 then .push i else .count (i + 1) }
  | .push i =>
    match a.subset[i]? with
    | none => .fault
    | some t =>
      if s.queue.mem p ≠ none then .blocked
      else
        match s.queue.push p t with
        | none => .fault
        | some queue => .next { s with queue := queue, main := .count (i + 1) }
  | .spawn i =>
    if i < a.workers then .next { s.goto i .top with main := .spawn (i + 1) }
    else if s.mu = none then .next { s with mu := some .main, main := .broadcast }
    else .blocked
  | .broadcast => .next { s.broadcast with main := .unlock }
  | .unlock => .next { s with mu := none, main := .join 0 }
  | .join i =>
    if i < a.workers then
      if s.pc i = .exited then .next { s with main := .join (i + 1) } else .blocked
    else .next { s with main := .drain s.queue.head }
  | .drain none => .next { s with main := .returned (if s.failed then 1 else 0) }
  | .drain (some cur) =>
    match LinkedQueue.free s.queue.mem cur with
    | none => .fault
    | some (next, mem) => .next { s with queue := { s.queue with mem := mem }, main := .drain next }
  | .returned _ => .blocked

inductive ThreadsEvent
  | caller (p : Nat)
  | worker (w : Nat) (ok : Bool) (p : Nat)
  | spurious (w : Nat)

def threadsStep (a : ParallelArgs) (s : Threads) : ThreadsEvent → ThreadsResult
  | .caller p => callerStep a s p
  | .worker w ok p => workerStep a s w ok p
  | .spurious w => if s.pc w = .waiting then .next (s.goto w .woken) else .blocked

def ThreadsStep (a : ParallelArgs) (s : Threads) (e : ThreadsEvent) (s' : Threads) : Prop :=
  threadsStep a s e = .next s'

/-! ## 3. The larger steps -/

/-- Where `Parallel` has the worker: a critical section counts at its end. -/
def WorkerPc.abs : WorkerPc → Pc
  | .unborn => .unborn
  | .top => .top
  | .look | .leaving | .unlock _ => .look
  | .waiting => .waiting
  | .woken => .woken
  | .start t | .hash t | .noHash t => .hash t
  | .lockHashFailed t => .lockHashFailed t
  | .hashFailed t | .hashRemaining t | .hashWake t | .hashUnlock t => .hashFailed t
  | .lookup t => .lookup t
  | .command t => .command t
  | .record t => .record t
  | .noExec t | .lockFailed t => .lockFailed t
  | .failed t => .failed t
  | .lockDone t => .lockDone t
  | .done t | .lockPrint t | .printing t | .release t _ | .push t _ | .wake t _ | .wakeAll t
  | .unlockDone t => .done t
  | .exited => .exited

def CallerPc.abs (a : ParallelArgs) : CallerPc → MainPc
  | .count _ | .push _ => .spawn 0
  | .spawn i => .spawn i
  | .broadcast | .unlock => .broadcast
  | .join i => .join i
  | .drain _ | .returned _ => .join a.workers

/-- What `mu` protects. -/
structure Shared where
  pendingDeps : Nat → Int
  remaining : Int
  failed : Bool
  ready : List TaskPtr

def ParallelState.shared (c : ParallelState) : Shared :=
  ⟨c.pendingDeps, c.remaining, c.failed, c.ready⟩

namespace Shared

/-- Lowers the count of an entry of `dependents`, if it has one. -/
def lower (a : ParallelArgs) (d : Shared) (dep : TaskPtr) : Shared :=
  match slot a dep with
  | none => d
  | some idx =>
    { d with pendingDeps := Function.update d.pendingDeps idx (d.pendingDeps idx - 1) }

/-- Lowering the count brings it to 0. -/
def Due (a : ParallelArgs) (d : Shared) (dep : TaskPtr) : Prop :=
  ∃ idx, slot a dep = some idx ∧ d.pendingDeps idx - 1 = 0

/-- What `releaseDependent` does to it. -/
def release (a : ParallelArgs) (d : Shared) (dep : TaskPtr) : Shared :=
  match slot a dep with
  | none => d
  | some idx =>
    let pendingDeps := Function.update d.pendingDeps idx (d.pendingDeps idx - 1)
    if pendingDeps idx = 0 then { d with pendingDeps := pendingDeps, ready := d.ready ++ [dep] }
    else { d with pendingDeps := pendingDeps }

/-- After so many of the dependents. -/
def releaseFirst (a : ParallelArgs) (t : TaskPtr) (n : Nat) (d : Shared) : Shared :=
  ((dependentsOf a.list t).take n).foldl (release a) { d with remaining := d.remaining - 1 }

end Shared

/-- What a worker in its critical section has done to it. -/
def WorkerPc.ahead (a : ParallelArgs) (d : Shared) : WorkerPc → Shared
  | .unlock (some _) => { d with ready := d.ready.tail }
  | .hashRemaining _ => { d with failed := true }
  | .hashWake _ | .hashUnlock _ => { d with failed := true, remaining := d.remaining - 1 }
  | .lockPrint _ | .printing _ => { d with remaining := d.remaining - 1 }
  | .release t i => d.releaseFirst a t i
  | .push t i =>
    match (dependentsOf a.list t)[i]? with
    | none => d.releaseFirst a t i
    | some dep => (d.releaseFirst a t i).lower a dep
  | .wake t i => d.releaseFirst a t (i + 1)
  | .wakeAll t | .unlockDone t => d.releaseFirst a t (dependentsOf a.list t).length
  | _ => d

namespace Threads

/-- The context holds it. -/
structure Holds (s : Threads) (d : Shared) : Prop where
  pendingDeps : s.pendingDeps = d.pendingDeps
  remaining : s.remaining = d.remaining
  failed : s.failed = d.failed
  queue : s.queue.Rep d.ready

/-- What it should hold, from what `Parallel` has. -/
def expected (a : ParallelArgs) (s : Threads) (c : ParallelState) : Shared :=
  match s.mu with
  | some (.worker w) => (s.pc w).ahead a c.shared
  | _ => c.shared

end Threads

/-- What a worker in its critical section has seen. -/
def WorkerPc.Guard (a : ParallelArgs) (s : Threads) (c : ParallelState) : WorkerPc → Prop
  | .leaving => c.ready = [] ∧ c.remaining = 0
  | .unlock none => c.ready = [] ∧ c.remaining < 0
  | .unlock (some t) => ∃ rest, c.ready = t :: rest
  | .push t i => ∃ dep, (dependentsOf a.list t)[i]? = some dep ∧
      (c.shared.releaseFirst a t i).Due a dep
  | .hashUnlock _ | .unlockDone _ => ∀ w, s.pc w ≠ .waiting
  | _ => True

end ReproVM
