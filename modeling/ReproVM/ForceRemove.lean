/-
# Removing a lock file by force

`lockfile_force_remove` beside the calls of `LockFile`: it opens the path, reads a PID, asks with
`kill(pid, 0)` whether there is such a process, and unlinks the path if it thinks not.  To the
processes that use one path this adds what is in the inodes, `ftruncate` and `write` as two steps,
and processes that die, which gives up their locks.

The PID in a file is not its lock.  It is written some steps after `flock`; the probe takes a process
of another user for a dead one; and between reading and unlinking the path may get a lock that was
not there.  `ForceEvent.Careful` says of each step that it meets none of the three.
-/
import ReproVM.LockFile

namespace ReproVM

open Bytes (ascii decimal digitsValue isDigit)
open Lib (Disk Run)

variable {P : Type} [DecidableEq P]

/-! ## 1. The PID in the file -/

/-- What `getpid` returns. -/
structure Pid where
  val : Nat
  pos : 0 < val
  lt : val < 2 ^ 31

/-- `pid_str` of an acquire. -/
def pidText (pid : Pid) : Bytes := snprintf 32 (decimal pid.val ++ [10])

/-- `fscanf` with `"%d"`: the number, or nothing matches; where the value is no `int`, C leaves the
result open. -/
def scanInt (s : Bytes) : Option Int :=
  let number (s : Bytes) : Option Int :=
    let digits := s.takeWhile isDigit
    if digits = [] then none else some (digitsValue digits)
  match s.dropWhile isspace with
  | 45 :: s => (number s).map (- ·)
  | 43 :: s => number s
  | s => number s

/-- `lockfile_get_holder`, from what is in the file. -/
def lockfileGetHolder (text : Bytes) : Int := (scanInt text).getD (-1)

theorem pidText_eq (pid : Pid) : pidText pid = decimal pid.val ++ [10] := by
  apply List.take_of_length_le
  have hlen := Bytes.length_decimal_le (n := pid.val) (k := 10) (by decide)
    (Nat.lt_of_lt_of_le pid.lt (by decide))
  rw [List.length_append, List.length_singleton]
  omega

/-- **What an acquire has written is read back**, whatever is left behind it. -/
theorem lockfileGetHolder_pidText (pid : Pid) (rest : Bytes) :
    lockfileGetHolder (pidText pid ++ rest) = pid.val := by
  have hdigits : (decimal pid.val ++ 10 :: rest).takeWhile isDigit = decimal pid.val := by
    rw [List.takeWhile_append_of_pos fun c hc => Bytes.isDigit_of_mem_decimal hc,
      List.takeWhile_cons_of_neg (by decide), List.append_nil]
  have htext : pidText pid ++ rest = decimal pid.val ++ 10 :: rest := by
    rw [pidText_eq, List.append_assoc, List.singleton_append]
  obtain ⟨c, s, hs⟩ := List.exists_cons_of_ne_nil (Bytes.decimal_ne_nil pid.val)
  obtain ⟨hspace, hminus, hplus⟩ :=
    not_isspace_of_isDigit (Bytes.isDigit_of_mem_decimal (hs ▸ List.mem_cons_self))
  have hscan : scanInt (decimal pid.val ++ 10 :: rest) = some (pid.val : Int) := by
    unfold scanInt
    rw [hs, List.cons_append, List.dropWhile_cons_of_neg hspace]
    split
    case h_1 heq => exact absurd (List.cons.inj heq).1 hminus
    case h_2 heq => exact absurd (List.cons.inj heq).1 hplus
    case h_3 =>
      rw [← List.cons_append, ← hs]
      dsimp only
      rw [hdigits, if_neg (Bytes.decimal_ne_nil _), Bytes.digitsValue_decimal]
  rw [htext, lockfileGetHolder, hscan, Option.getD_some]

/-! ## 2. The system calls -/

/-- What `kill(pid, 0)` can give. -/
inductive KillAnswer
  | success
  | esrch
  | eperm
deriving DecidableEq

def isProcessAlive (answer : KillAnswer) : Bool := answer = .success

/-- Where a process is in `lockfile_force_remove`. -/
inductive ForcePc
  | idle
  /-- before `fscanf`, with this inode open -/
  | opened (i : Nat)
  /-- before `kill`, with this PID -/
  | probing (holder : Int)
  /-- before `unlink` -/
  | removing
deriving DecidableEq

/-- From the PID to what is done with it. -/
def forceCheck (holder : Int) : ForcePc := if 0 < holder then .probing holder else .removing

structure ForceState (P : Type) where
  lock : LockState P
  /-- what is in each inode -/
  text : Nat → Bytes
  /-- has made its `ftruncate` since it got the lock -/
  truncated : P → Bool
  alive : P → Bool
  force : P → ForcePc

inductive ForceEvent (P : Type)
  /-- any step of `LockFile` but the writes -/
  | call (e : LockEvent P)
  | truncate (p : P) (ok : Bool)
  /-- `write` of the PID, which puts this many bytes in the file -/
  | write (p : P) (n : Nat)
  | fopen (p : P) (ok : Bool)
  | fscanf (p : P) (ok : Bool)
  | kill (p : P) (answer : KillAnswer)
  | unlink (p : P) (ok : Bool)
  | die (p : P)

def LockEvent.process : LockEvent P → P
  | .openPath p _ => p
  | .again p => p
  | .lock p => p
  | .lockFails p => p
  | .write p _ => p
  | .unlock p => p
  | .close p => p
  | .unlink p => p

def ForceEvent.process : ForceEvent P → P
  | .call e => e.process
  | .truncate p _ => p
  | .write p _ => p
  | .fopen p _ => p
  | .fscanf p _ => p
  | .kill p _ => p
  | .unlink p _ => p
  | .die p => p

/-- The process is gone, and with it its locks. -/
def LockState.drop (s : LockState P) (p : P) : LockState P where
  pc := Function.update s.pc p .idle
  disk := { s.disk with
    inode := fun i =>
      if (s.disk.inode i).owner = some p then { s.disk.inode i with owner := none }
      else s.disk.inode i }

namespace LockState

variable (s : LockState P) (p : P)

@[simp] theorem drop_pc_self : (s.drop p).pc p = .idle := Function.update_self ..

theorem drop_pc_ne {q : P} (h : q ≠ p) : (s.drop p).pc q = s.pc q := Function.update_of_ne h ..

@[simp] theorem drop_entry : (s.drop p).disk.entry = s.disk.entry := rfl

@[simp] theorem drop_next : (s.drop p).disk.next = s.disk.next := rfl

theorem drop_owner (i : Nat) : ((s.drop p).disk.inode i).owner =
    if (s.disk.inode i).owner = some p then none else (s.disk.inode i).owner := by
  by_cases h : (s.disk.inode i).owner = some p <;> simp [drop, h]

@[simp] theorem drop_pid (i : Nat) : ((s.drop p).disk.inode i).pid = (s.disk.inode i).pid := by
  rw [drop]
  dsimp only
  split <;> rfl

end LockState

namespace ForceState

def goto (s : ForceState P) (p : P) (pc : ForcePc) : ForceState P :=
  { s with force := Function.update s.force p pc }

/-- After a step of `LockFile`: a new file is empty, and who gets the lock has not truncated it. -/
def called (path : Bytes) (s : ForceState P) (e : LockEvent P) (l : LockState P) : ForceState P :=
  { s with
    lock := l
    text :=
      match e with
      | .openPath _ _ =>
        if s.lock.disk.entry path = none then Function.update s.text s.lock.disk.next [] else s.text
      | _ => s.text
    truncated :=
      match e with
      | .lock p => Function.update s.truncated p false
      | _ => s.truncated }

end ForceState

/-- One system call of one process; a process may be in a call of `LockFile` and, in another thread,
in a forced removal. -/
def forceStep (path : Bytes) (pid : P → Pid) (s : ForceState P) :
    ForceEvent P → Option (ForceState P)
  | .call (.write _ _) => none
  | .call e => (lockStep path s.lock e).map (s.called path e)
  | .truncate p ok =>
    match s.lock.pc p with
    | .locked i wait =>
      if s.truncated p then none
      else if ok then
        some { s with
          text := Function.update s.text i []
          truncated := Function.update s.truncated p true }
      else if wait then (lockStep path s.lock (.write p false)).map fun l => { s with lock := l }
      else some { s with truncated := Function.update s.truncated p true }
    | _ => none
  | .write p n =>
    match s.lock.pc p with
    | .locked i _ =>
      if s.truncated p then
        let pidStr := pidText (pid p)
        (lockStep path s.lock (.write p (pidStr.length ≤ n))).map fun l =>
          { s with
            lock := l
            text := Function.update s.text i
              (pidStr.take n ++ (s.text i).drop (pidStr.take n).length) }
      else none
    | _ => none
  | .fopen p ok =>
    match s.force p with
    | .idle =>
      match if ok then s.lock.disk.entry path else none with
      | some i => some (s.goto p (.opened i))
      | none => some (s.goto p (forceCheck (-1)))
    | _ => none
  | .fscanf p ok =>
    match s.force p with
    | .opened i => some (s.goto p (forceCheck (if ok then lockfileGetHolder (s.text i) else -1)))
    | _ => none
  | .kill p answer =>
    match s.force p with
    | .probing _ => some (s.goto p (if isProcessAlive answer then .idle else .removing))
    | _ => none
  | .unlink p ok =>
    match s.force p with
    | .removing =>
      some { s.goto p .idle with
        lock := if ok then s.lock.withDisk (s.lock.disk.unlink path) else s.lock }
    | _ => none
  | .die p =>
    some { s.goto p .idle with
      lock := s.lock.drop p
      alive := Function.update s.alive p false }

/-- The system answers `ESRCH` for no process that is alive. -/
def ForceEvent.Answered (pid : P → Pid) (s : ForceState P) : ForceEvent P → Prop
  | .kill p .esrch => ∀ q, s.alive q → s.force p ≠ .probing (pid q).val
  | _ => True

structure ForceStep (path : Bytes) (pid : P → Pid) (s : ForceState P) (e : ForceEvent P)
    (s' : ForceState P) : Prop where
  alive : s.alive e.process
  step : forceStep path pid s e = some s'
  answered : e.Answered pid s

/-! ## 3. What is asked of a forced removal -/

/-- The inode the path refers to and the live process that has its lock. -/
def ForceState.liveLock (path : Bytes) (s : ForceState P) : Option (Nat × P) :=
  (s.lock.disk.entry path).bind fun i =>
    (s.lock.disk.inode i).owner.bind fun q => if s.alive q then some (i, q) else none

/-- No forced removal unlinks the path while a live process has its lock. -/
def LiveLockKept (path : Bytes) (pid : P → Pid) (s : ForceState P) : Prop :=
  ∀ p s', ForceStep path pid s (.unlink p true) s' → s.liveLock path = none

/-- Nobody has begun a call. -/
structure ForceState.Start (s : ForceState P) : Prop where
  lock : s.lock.Start
  idle : ∀ p, s.force p = .idle

/-- What a forced removal must not meet: a lock of the path that is granted after it has read the
file, found none or opened an older one; a live lock whose file it cannot open or read, or reads
before the PID is in it; and a probe of the process with that lock which fails for want of
permission. -/
def ForceEvent.Careful (path : Bytes) (pid : P → Pid) (s : ForceState P) : ForceEvent P → Prop
  | .call (.lock q) => ∀ i ∈ (s.lock.pc q).uses, s.lock.disk.entry path = some i →
      ∀ p, s.force p = .idle ∨ s.force p = .opened i
  | .fopen _ ok => ok = false → s.liveLock path = none
  | .fscanf p ok => ∀ l ∈ s.liveLock path, s.force p = .opened l.1 →
      ok = true ∧ s.lock.pc l.2 = .held l.1 ∧ (s.lock.disk.inode l.1).pid = some l.2
  | .kill p answer => answer = .eperm → ∀ l ∈ s.liveLock path, s.force p ≠ .probing (pid l.2).val
  | _ => True

/-- The entry, the lock and the life behind it. -/
def ForceState.Holds (path : Bytes) (s : ForceState P) (i : Nat) (q : P) : Prop :=
  s.lock.disk.entry path = some i ∧ (s.lock.disk.inode i).owner = some q ∧ s.alive q

omit [DecidableEq P] in
theorem liveLock_eq_some {path : Bytes} {s : ForceState P} {l : Nat × P} :
    s.liveLock path = some l ↔ s.Holds path l.1 l.2 := by
  simp only [ForceState.liveLock, ForceState.Holds, Option.bind_eq_some_iff,
    Option.ite_none_right_eq_some, Option.some.injEq]
  constructor
  · rintro ⟨i, hentry, q, howner, halive, rfl⟩
    exact ⟨hentry, howner, halive⟩
  · rintro ⟨hentry, howner, halive⟩
    exact ⟨l.1, hentry, l.2, howner, halive, rfl⟩

end ReproVM
