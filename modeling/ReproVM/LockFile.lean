/-
# The lock file

`lockfile_acquire`, `lockfile_try_acquire` and `lockfile_release` as sequences of steps, for any
number of processes that use one path: `open` with `O_CREAT`, `flock` on the inode that was opened,
writing the PID, and for a release `flock(LOCK_UN)`, `close`, `unlink` of the path, in this order.
The lock belongs to the inode; the path is only how it is found.

A release unlinks a path that others may have opened by then, so who waits there and who comes
later lock two inodes.  Where every `unlink` finds the path gone, or an inode that no process has
opened for its lock, at most one process holds the lock.
-/
import ReproVM.Lib.Inodes
import ReproVM.Lib.Trans
import ReproVM.Util

namespace ReproVM

open Bytes (ascii)
open Lib (Disk Run)

variable {P : Type} [DecidableEq P]

/-! ## 1. Processes -/

/-- The inode of a lock file: who has locked it, and whose PID is in it. -/
structure LockInode (P : Type) where
  owner : Option P
  pid : Option P

/-- Where a process is; `wait` says that it runs `lockfile_acquire`, and not
`lockfile_try_acquire`. -/
inductive LockPc
  | idle
  /-- before `flock(LOCK_EX)` -/
  | opened (i : Nat) (wait : Bool)
  /-- before `ftruncate` and `write` -/
  | locked (i : Nat) (wait : Bool)
  /-- before the `flock(LOCK_UN)` after a PID that could not be written -/
  | failed (i : Nat)
  /-- before the `close` of a call that returns NULL -/
  | closing (i : Nat)
  /-- the call has returned the lock -/
  | held (i : Nat)
  /-- in `lockfile_release`, before `close` -/
  | released (i : Nat)
  /-- before `unlink` -/
  | closed
deriving DecidableEq

structure LockState (P : Type) where
  disk : Disk Bytes (LockInode P)
  pc : P → LockPc

inductive LockEvent (P : Type)
  | openPath (p : P) (wait : Bool)
  /-- a call whose `open` fails, or whose `flock` is interrupted and made again -/
  | again (p : P)
  | lock (p : P)
  /-- `flock` fails: another has the lock and the call does not wait, or an error -/
  | lockFails (p : P)
  | write (p : P) (ok : Bool)
  | unlock (p : P)
  | close (p : P)
  | unlink (p : P)

namespace LockState

def goto (s : LockState P) (p : P) (pc : LockPc) : LockState P :=
  { s with pc := Function.update s.pc p pc }

def withDisk (s : LockState P) (d : Disk Bytes (LockInode P)) : LockState P := { s with disk := d }

@[simp] theorem goto_self (s : LockState P) (d : Disk Bytes (LockInode P)) (p : P) (pc : LockPc) :
    ((s.goto p pc).withDisk d).pc p = pc := Function.update_self ..

theorem goto_ne (s : LockState P) (d : Disk Bytes (LockInode P)) {p q : P} (h : q ≠ p) (pc : LockPc) :
    ((s.goto p pc).withDisk d).pc q = s.pc q := Function.update_of_ne h ..

omit [DecidableEq P] in
@[simp] theorem withDisk_disk (s : LockState P) (d : Disk Bytes (LockInode P)) :
    (s.withDisk d).disk = d := rfl

end LockState

/-- One step of one process.  `lock->path` has room for 511 bytes of the path. -/
def lockStep (path : Bytes) (s : LockState P) : LockEvent P → Option (LockState P)
  | .openPath p wait =>
    match s.pc p with
    | .idle =>
      let r := s.disk.create path ⟨none, none⟩
      some ((s.goto p (.opened r.1 wait)).withDisk r.2)
    | _ => none
  | .again p =>
    match s.pc p with
    | .idle => some s
    | .opened _ true => some s
    | _ => none
  | .lock p =>
    match s.pc p with
    | .opened i wait =>
      if (s.disk.inode i).owner.isSome then none
      else some ((s.goto p (.locked i wait)).withDisk
        (s.disk.put i { s.disk.inode i with owner := some p }))
    | _ => none
  | .lockFails p =>
    match s.pc p with
    | .opened i _ => some (s.goto p (.closing i))
    | _ => none
  | .write p ok =>
    match s.pc p with
    | .locked i wait =>
      -- `lockfile_try_acquire` does not look at what its writes return
      some ((s.goto p (if ok || !wait then .held i else .failed i)).withDisk
        (s.disk.put i { s.disk.inode i with pid := if ok then some p else none }))
    | _ => none
  | .unlock p =>
    match s.pc p with
    | .failed i => some ((s.goto p (.closing i)).withDisk
        (s.disk.put i { s.disk.inode i with owner := none }))
    | .held i => some ((s.goto p (.released i)).withDisk
        (s.disk.put i { s.disk.inode i with owner := none }))
    | _ => none
  | .close p =>
    match s.pc p with
    | .closing _ => some (s.goto p .idle)
    | .released _ => some (s.goto p .closed)
    | _ => none
  | .unlink p =>
    match s.pc p with
    | .closed => some ((s.goto p .idle).withDisk (s.disk.unlink (path.take 511)))
    | _ => none

def LockStep (path : Bytes) (s : LockState P) (e : LockEvent P) (s' : LockState P) : Prop :=
  lockStep path s e = some s'

/-- At most one process is between a successful acquire and the start of its release. -/
def MutualExclusion (s : LockState P) : Prop :=
  ∀ p q i j, s.pc p = .held i → s.pc q = .held j → p = q

/-- Every process is about to make a first call.  The file may be there or not. -/
structure LockState.Start (s : LockState P) : Prop where
  disk : s.disk.Ok
  idle : ∀ p, s.pc p = .idle

/-- The inode that a process has opened for its lock. -/
def LockPc.uses : LockPc → Option Nat
  | .opened i _ => some i
  | .locked i _ => some i
  | .held i => some i
  | _ => none

/-- An `unlink` takes no inode that a process has opened for its lock. -/
def LockEvent.Clear (path : Bytes) (s : LockState P) : LockEvent P → Prop
  | .unlink _ => ∀ i, s.disk.entry (path.take 511) = some i → ∀ q, (s.pc q).uses ≠ some i
  | _ => True

/-! ## 2. The invariant -/

/-- What holds of a process: the path leads to the inode it has opened, and what it has locked is
its own. -/
def LockPc.Good (path : Bytes) (d : Disk Bytes (LockInode P)) (p : P) : LockPc → Prop
  | .opened i _ => d.entry path = some i
  | .locked i _ => d.entry path = some i ∧ (d.inode i).owner = some p
  | .held i => d.entry path = some i ∧ (d.inode i).owner = some p
  | .failed i => i < d.next ∧ (d.inode i).owner = some p
  | _ => True

structure FlockInv (path : Bytes) (s : LockState P) : Prop where
  ok : s.disk.Ok
  good : ∀ p, (s.pc p).Good path s.disk p

section Frame

omit [DecidableEq P]

variable {path : Bytes} {d d' : Disk Bytes (LockInode P)} {p q : P} {pc : LockPc}

/-- Another process makes the file. -/
theorem LockPc.Good.made {a : LockInode P} (h : pc.Good path d q) (hnone : d.entry path = none)
    (hd : d.Made path a d') : pc.Good path d' q := by
  have hgone : ∀ {i}, d.entry path = some i → False := fun hi => by simp [hnone] at hi
  cases pc with
  | opened i wait => exact (hgone h).elim
  | locked i wait => exact (hgone h.1).elim
  | held i => exact (hgone h.1).elim
  | failed i =>
    obtain ⟨hlt, howner⟩ := h
    refine ⟨?_, by rw [hd.inode_lt i hlt, howner]⟩
    rw [hd.next]
    exact Nat.lt_succ_of_lt hlt
  | idle => trivial
  | closing i => trivial
  | released i => trivial
  | closed => trivial

/-- Another process changes an inode that this one has not locked. -/
theorem LockPc.Good.put (h : pc.Good path d q) {i : Nat} (hi : (d.inode i).owner ≠ some q)
    (x : LockInode P) : pc.Good path (d.put i x) q := by
  have hkeep : ∀ {j}, (d.inode j).owner = some q → ((d.put i x).inode j).owner = some q := by
    intro j hj
    rw [Disk.put_ne (by rintro rfl; exact hi hj), hj]
  cases pc with
  | opened j wait => exact h
  | locked j wait => exact ⟨h.1, hkeep h.2⟩
  | held j => exact ⟨h.1, hkeep h.2⟩
  | failed j => exact ⟨h.1, hkeep h.2⟩
  | idle => trivial
  | closing j => trivial
  | released j => trivial
  | closed => trivial

/-- Another process unlinks the path, or what is left of it. -/
theorem LockPc.Good.unlink (h : pc.Good path d q)
    (hc : ∀ i, d.entry (path.take 511) = some i → pc.uses ≠ some i) :
    pc.Good path (d.unlink (path.take 511)) q := by
  have hkeep : ∀ {i}, d.entry path = some i → pc.uses = some i →
      (d.unlink (path.take 511)).entry path = some i := by
    intro i hi huse
    rw [Disk.unlink_entry, if_neg, hi]
    intro hpath
    exact hc i (hpath ▸ hi) huse
  cases pc with
  | opened i wait => exact hkeep h rfl
  | locked i wait => exact ⟨hkeep h.1 rfl, h.2⟩
  | held i => exact ⟨hkeep h.1 rfl, h.2⟩
  | failed i => exact h
  | idle => trivial
  | closing i => trivial
  | released i => trivial
  | closed => trivial

end Frame

/-! ## 3. One step -/

section Step

variable {path : Bytes} {s s' : LockState P} {p : P}

/-- A step of the process `p`, from what it does to the disk. -/
theorem FlockInv.process {d : Disk Bytes (LockInode P)} {pc : LockPc}
    (hok : d.Ok) (hself : pc.Good path d p)
    (hothers : ∀ q, q ≠ p → (s.pc q).Good path d q) :
    FlockInv path ((s.goto p pc).withDisk d) where
  ok := hok
  good q := by
    unfold LockState.withDisk LockState.goto
    dsimp only
    rw [Function.update_apply]
    split
    · rename_i hq
      exact hq ▸ hself
    · rename_i hq
      exact hothers q hq

/-- Who has the lock changes its inode. -/
theorem FlockInv.owner (hi : FlockInv path s) {pc : LockPc} {i : Nat} {x : LockInode P}
    (howner : (s.disk.inode i).owner = some p) (hself : pc.Good path (s.disk.put i x) p) :
    FlockInv path ((s.goto p pc).withDisk (s.disk.put i x)) := by
  refine FlockInv.process hi.ok hself fun q hq => (hi.good q).put ?_ x
  rw [howner]
  exact fun h => hq (Option.some.inj h).symm

/-- **One step** whose `unlink` takes nobody's inode. -/
theorem LockStep.inv {e : LockEvent P} (hs : LockStep path s e s') (hc : e.Clear path s)
    (hi : FlockInv path s) : FlockInv path s' := by
  unfold LockStep at hs
  cases e with
  | openPath p wait =>
    simp only [lockStep] at hs
    split at hs
    · cases hs
      cases hn : s.disk.entry path with
      | none =>
        have hd := Disk.made_create hn (⟨none, none⟩ : LockInode P)
        refine FlockInv.process (hd.ok hi.ok) ?_ fun q _ => (hi.good q).made hn hd
        rw [Disk.create_fst hn]
        exact hd.entry_self
      | some i =>
        rw [Disk.create_some hn]
        exact FlockInv.process hi.ok hn fun q _ => hi.good q
    · cases hs
  | again p =>
    simp only [lockStep] at hs
    split at hs <;> cases hs <;> exact hi
  | lock p =>
    simp only [lockStep] at hs
    split at hs
    · rename_i i wait hpc
      split at hs
      · cases hs
      · rename_i hfree
        cases hs
        have hgood := hi.good p
        rw [hpc] at hgood
        have hnone : (s.disk.inode i).owner = none := by simpa using hfree
        refine FlockInv.process hi.ok ⟨hgood, ?_⟩ fun q _ => (hi.good q).put ?_ _
        · rw [Disk.put_self]
        · simp [hnone]
    · cases hs
  | lockFails p =>
    simp only [lockStep] at hs
    split at hs
    · cases hs
      exact FlockInv.process hi.ok trivial fun q _ => hi.good q
    · cases hs
  | write p ok =>
    simp only [lockStep] at hs
    split at hs
    · rename_i i wait hpc
      cases hs
      have hgood := hi.good p
      rw [hpc] at hgood
      obtain ⟨hentry, howner⟩ := hgood
      refine hi.owner howner ?_
      cases ok || !wait
      · exact ⟨hi.ok _ _ hentry, by rw [Disk.put_self, howner]⟩
      · exact ⟨hentry, by rw [Disk.put_self, howner]⟩
    · cases hs
  | unlock p =>
    simp only [lockStep] at hs
    split at hs
    · rename_i i hpc
      cases hs
      have hgood := hi.good p
      rw [hpc] at hgood
      exact hi.owner hgood.2 trivial
    · rename_i i hpc
      cases hs
      have hgood := hi.good p
      rw [hpc] at hgood
      exact hi.owner hgood.2 trivial
    · cases hs
  | close p =>
    simp only [lockStep] at hs
    split at hs
    · cases hs
      exact FlockInv.process hi.ok trivial fun q _ => hi.good q
    · cases hs
      exact FlockInv.process hi.ok trivial fun q _ => hi.good q
    · cases hs
  | unlink p =>
    simp only [lockStep] at hs
    split at hs
    · cases hs
      exact FlockInv.process hi.ok.unlink trivial fun q _ => (hi.good q).unlink fun i hi' => hc i hi' q
    · cases hs

end Step

/-! ## 4. Runs -/

section Runs

variable {path : Bytes} {s s₀ : LockState P}

omit [DecidableEq P] in
theorem LockState.Start.inv (h : s.Start) : FlockInv path s where
  ok := h.disk
  good p := by
    rw [h.idle p]
    trivial

omit [DecidableEq P] in
/-- Who has the lock has the inode of the path. -/
theorem FlockInv.mutualExclusion (hi : FlockInv path s) : MutualExclusion s := by
  intro p q i j hp hq
  have hgp := hi.good p
  have hgq := hi.good q
  rw [hp] at hgp
  rw [hq] at hgq
  obtain rfl : i = j := Option.some.inj (hgp.1.symm.trans hgq.1)
  exact Option.some.inj (hgp.2.symm.trans hgq.2)

/-- A step whose `unlink` takes nobody's inode. -/
def ClearStep (path : Bytes) (s : LockState P) (e : LockEvent P) (s' : LockState P) : Prop :=
  LockStep path s e s' ∧ e.Clear path s

/-- **An `unlink` while another process has the lock** gives the lock away a second time. -/
theorem unlink_second_lock (hlen : path.length ≤ 511) {p q : P} {i : Nat}
    (hp : s.pc p = .closed) (hq : s.pc q = .held i) :
    ∃ s', Run (LockStep path) s [.unlink p, .openPath p true, .lock p, .write p true] s' ∧
      ¬ MutualExclusion s' := by
  have htake : path.take 511 = path := List.take_of_length_le hlen
  have hne : q ≠ p := by
    rintro rfl
    rw [hp] at hq
    cases hq
  have hnone : (s.disk.unlink path).entry path = none := by rw [Disk.unlink_entry, if_pos rfl]
  have hd := Disk.made_create hnone (⟨none, none⟩ : LockInode P)
  generalize hcreate : (s.disk.unlink path).create path (⟨none, none⟩ : LockInode P) = r at hd
  have hfst : r.1 = s.disk.next := by rw [← hcreate, Disk.create_fst hnone, Disk.unlink_next]
  have hfree : r.2.inode s.disk.next = ⟨none, none⟩ := hd.inode_self
  let s₁ := (s.goto p .idle).withDisk (s.disk.unlink path)
  let s₂ := (s₁.goto p (.opened s.disk.next true)).withDisk r.2
  let s₃ := (s₂.goto p (.locked s.disk.next true)).withDisk (r.2.put s.disk.next ⟨some p, none⟩)
  let s₄ := (s₃.goto p (.held s.disk.next)).withDisk
    ((r.2.put s.disk.next ⟨some p, none⟩).put s.disk.next ⟨some p, some p⟩)
  have h1 : LockStep path s (.unlink p) s₁ := by
    simp [LockStep, lockStep, hp, htake, s₁]
  have h2 : LockStep path s₁ (.openPath p true) s₂ := by
    simp [LockStep, lockStep, s₁, s₂, hcreate, hfst]
  have h3 : LockStep path s₂ (.lock p) s₃ := by
    simp [LockStep, lockStep, s₂, s₃, hfree]
  have h4 : LockStep path s₃ (.write p true) s₄ := by
    simp [LockStep, lockStep, s₃, s₄]
  refine ⟨s₄, (((Run.single h1).append (Run.single h2)).append (Run.single h3)).append
    (Run.single h4), fun h => hne (h q p i s.disk.next ?_ (LockState.goto_self ..))⟩
  rw [LockState.goto_ne _ _ hne, LockState.goto_ne _ _ hne, LockState.goto_ne _ _ hne,
    LockState.goto_ne _ _ hne, hq]

end Runs

/-- No lock file yet. -/
def LockState.init : LockState P := ⟨Disk.empty ⟨none, none⟩, fun _ => .idle⟩

omit [DecidableEq P] in
theorem LockState.init_start : (LockState.init : LockState P).Start where
  disk n i h := by cases h
  idle p := rfl

/-- A process that is alone takes nobody's inode. -/
theorem LockStep.clear_alone {path : Bytes} {s s' : LockState Unit} {e : LockEvent Unit}
    (h : LockStep path s e s') : ClearStep path s e s' := by
  refine ⟨h, ?_⟩
  cases e with
  | unlink p =>
    intro i _ q huse
    simp only [LockStep, lockStep] at h
    split at h
    · rename_i hpc
      rw [show q = p from rfl, hpc] at huse
      cases huse
    · cases h
  | openPath p wait => trivial
  | again p => trivial
  | lock p => trivial
  | lockFails p => trivial
  | write p ok => trivial
  | unlock p => trivial
  | close p => trivial

end ReproVM
