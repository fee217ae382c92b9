/-
# Asking about a lock

`lockfile_is_locked` beside the calls of `LockFile`, for any number of processes and of callers that
ask.  To ask is to lock: the call opens the path, tries `flock` on what it has opened, and where it
gets the lock it gives it up again.  In between it has the lock like anybody else, so a
`lockfile_try_acquire`, or another caller that asks, may be refused because of it.

Where each `unlink` takes an inode that no process has opened for its lock, as in `LockFile`, asking
does not disturb the exclusion, and each answer is right at some moment of the call: "not locked"
where nobody had the lock, "locked" where a process or another caller had it.
-/
import ReproVM.ForceRemoveRuns
import Mathlib.Data.Fintype.Sum

namespace ReproVM

open Bytes (ascii)
open Lib (Disk Run)

variable {P Q : Type} [DecidableEq P] [DecidableEq Q]

/-! ## 1. The calls -/

/-- Where a caller of `lockfile_is_locked` is. -/
inductive ProbePc (P Q : Type)
  | idle
  /-- before `flock(LOCK_EX | LOCK_NB)` -/
  | opened (i : Nat)
  /-- has got the lock, before `flock(LOCK_UN)` -/
  | got (i : Nat)
  /-- `flock` has failed -/
  | refused (i : Nat)
  /-- before `close` -/
  | closing (answer : Int) (holder : Option (P ⊕ Q))
  /-- the call has returned this, and `*holder_pid` is this one's PID or was not written -/
  | returned (answer : Int) (holder : Option (P ⊕ Q))
deriving DecidableEq

/-- The processes are those of `LockFile`; who asks may have a lock, but makes none of their calls. -/
structure ProbeState (P Q : Type) where
  lock : LockState (P ⊕ Q)
  probe : Q → ProbePc P Q

inductive ProbeEvent (P Q : Type)
  /-- any step of `LockFile` -/
  | call (e : LockEvent (P ⊕ Q))
  | openPath (q : Q) (ok : Bool)
  | flock (q : Q) (ok : Bool)
  /-- `lockfile_get_holder`, when there is a place for the PID -/
  | getHolder (q : Q)
  | unlock (q : Q)
  | close (q : Q)

/-- Who asks, and not one of the processes. -/
def ProbeEvent.prober : ProbeEvent P Q → Option Q
  | .call _ => none
  | .openPath q _ => some q
  | .flock q _ => some q
  | .getHolder q => some q
  | .unlock q => some q
  | .close q => some q

namespace ProbeState

def goto (s : ProbeState P Q) (q : Q) (pc : ProbePc P Q) : ProbeState P Q :=
  { s with probe := Function.update s.probe q pc }

/-- The inode with another owner. -/
def own (s : ProbeState P Q) (i : Nat) (x : Option (P ⊕ Q)) : ProbeState P Q :=
  { s with lock := s.lock.withDisk (s.lock.disk.put i { s.lock.disk.inode i with owner := x }) }

variable {s : ProbeState P Q} {q r : Q} {pc : ProbePc P Q} {i j : Nat} {x : Option (P ⊕ Q)}

omit [DecidableEq P]

@[simp] theorem goto_lock : (s.goto q pc).lock = s.lock := rfl

theorem goto_probe : (s.goto q pc).probe r = if r = q then pc else s.probe r :=
  Function.update_apply ..

@[simp] theorem goto_self : (s.goto q pc).probe q = pc := Function.update_self ..

omit [DecidableEq Q]

@[simp] theorem own_probe : (s.own i x).probe = s.probe := rfl

@[simp] theorem own_pc : (s.own i x).lock.pc = s.lock.pc := rfl

@[simp] theorem own_entry : (s.own i x).lock.disk.entry = s.lock.disk.entry := rfl

@[simp] theorem own_next : (s.own i x).lock.disk.next = s.lock.disk.next := rfl

theorem own_owner :
    ((s.own i x).lock.disk.inode j).owner = if j = i then x else (s.lock.disk.inode j).owner := by
  split
  · rename_i h
    subst h
    exact congrArg LockInode.owner Disk.put_self
  · rename_i h
    exact congrArg LockInode.owner (Disk.put_ne h)

@[simp] theorem own_pid : ((s.own i x).lock.disk.inode j).pid = (s.lock.disk.inode j).pid := by
  change ((s.lock.disk.put i { s.lock.disk.inode i with owner := x }).inode j).pid = _
  by_cases h : j = i
  · rw [h, Disk.put_self]
  · rw [Disk.put_ne h]

end ProbeState

/-- One step of one process or caller. -/
def probeStep (path : Bytes) (s : ProbeState P Q) : ProbeEvent P Q → Option (ProbeState P Q)
  | .call e =>
    if e.process.isLeft then (lockStep path s.lock e).map fun l => { s with lock := l } else none
  | .openPath q ok =>
    match s.probe q with
    | .idle | .returned _ _ =>
      match if ok then s.lock.disk.entry path else none with
      | some i => some (s.goto q (.opened i))
      | none => some (s.goto q (.returned 0 none))
    | _ => none
  | .flock q ok =>
    match s.probe q with
    | .opened i =>
      if ok ∧ (s.lock.disk.inode i).owner = none then some ((s.goto q (.got i)).own i (some (.inr q)))
      else some (s.goto q (.refused i))
    | _ => none
  | .getHolder q =>
    match s.probe q with
    | .refused _ =>
      -- the path is opened once more
      some (s.goto q (.closing 1 ((s.lock.disk.entry path).bind fun i => (s.lock.disk.inode i).pid)))
    | _ => none
  | .unlock q =>
    match s.probe q with
    | .got i => some ((s.goto q (.closing 0 none)).own i none)
    | _ => none
  | .close q =>
    match s.probe q with
    | .refused _ => some (s.goto q (.returned 1 none))
    | .closing answer holder => some (s.goto q (.returned answer holder))
    | _ => none

/-- An `unlink` takes nobody's inode, and the system calls of who asks fail only where there is no
file, or where its lock is taken. -/
def ProbeEvent.Regular (path : Bytes) (s : ProbeState P Q) : ProbeEvent P Q → Prop
  | .call e => e.Clear path s.lock
  | .openPath _ ok => ok = false → s.lock.disk.entry path = none
  | .flock _ ok => ok = true
  | _ => True

def RegularStep (path : Bytes) (s : ProbeState P Q) (e : ProbeEvent P Q) (s' : ProbeState P Q) :
    Prop :=
  probeStep path s e = some s' ∧ e.Regular path s

/-- The inode that a process has locked. -/
def LockPc.has : LockPc → Option Nat
  | .locked i _ => some i
  | .held i => some i
  | .failed i => some i
  | _ => none

/-- The process has written its PID, and the path still leads to it. -/
def LockPc.signed : LockPc → Bool
  | .held _ => true
  | .released _ => true
  | .closed => true
  | _ => false

/-- A process is between its `flock` and its unlocking, or a caller is. -/
def ProbeState.Has (s : ProbeState P Q) (i : Nat) : P ⊕ Q → Prop
  | .inl p => (s.lock.pc (.inl p)).has = some i
  | .inr q => s.probe q = .got i

/-- No process has the lock: none is between a successful acquire and its release. -/
def Unheld (s : ProbeState P Q) : Prop := ∀ p i, s.lock.pc (.inl p) ≠ .held i

/-- Nobody has begun a call, and a lock file that is there is nobody's. -/
structure ProbeState.Start (s : ProbeState P Q) : Prop where
  lock : s.lock.Start
  idle : ∀ q, s.probe q = .idle
  free : ∀ i, s.lock.disk.inode i = ⟨none, none⟩

/-! ## 2. What a call of `LockFile` does to the owners -/

section Owners

variable {path : Bytes} {s s' : LockState P} {p : P}

/-- One step of the process `p`: the others keep what is theirs, what is its own it says, and a PID
that was not there is the one it has written. -/
structure OwnerStep (path : Bytes) (s : LockState P) (p : P) (s' : LockState P) : Prop where
  pc : ∀ q, q ≠ p → s'.pc q = s.pc q
  next : s.disk.next ≤ s'.disk.next
  keep : ∀ i < s.disk.next, ∀ q, q ≠ p → (s.disk.inode i).owner = some q →
    (s'.disk.inode i).owner = some q
  old : ∀ i q, q ≠ p → (s'.disk.inode i).owner = some q → (s.disk.inode i).owner = some q
  mine : ∀ i, (s'.disk.inode i).owner = some p → (s'.pc p).has = some i
  pid : ∀ i q, (s'.disk.inode i).pid = some q →
    (s.disk.inode i).pid = some q ∨ q = p ∧ (s'.pc p).signed
  signed : (s.pc p).signed → (s'.pc p).signed ∨ s'.disk.entry path = none
  entry : ∀ i, s'.disk.entry path = some i → s.disk.entry path = some i ∨ (s'.disk.inode i).pid = none

/-- A step that changes no inode, of a process that has none. -/
theorem OwnerStep.same {d : Disk Bytes (LockInode P)} {pc : LockPc} (hinode : d.inode = s.disk.inode)
    (hnext : s.disk.next = d.next) (hmine : ∀ i, (s.disk.inode i).owner ≠ some p)
    (hsigned : (s.pc p).signed → pc.signed ∨ d.entry path = none)
    (hentry : ∀ i, d.entry path = some i → s.disk.entry path = some i) :
    OwnerStep path s p ((s.goto p pc).withDisk d) where
  pc q hq := LockState.goto_ne _ _ hq _
  next := Nat.le_of_eq hnext
  keep i _ q _ ho := by rw [LockState.withDisk_disk, hinode, ho]
  old i q _ ho := by rwa [LockState.withDisk_disk, hinode] at ho
  mine i ho := by
    rw [LockState.withDisk_disk, hinode] at ho
    exact absurd ho (hmine i)
  pid i q h := by
    rw [LockState.withDisk_disk, hinode] at h
    exact .inl h
  signed h := by
    rw [LockState.goto_self]
    exact hsigned h
  entry i h := .inl (hentry i h)

/-- A step that changes one inode, which is free or its own. -/
theorem OwnerStep.put {pc : LockPc} {i : Nat} {x : LockInode P}
    (hfree : ∀ q, q ≠ p → (s.disk.inode i).owner ≠ some q) (hx : ∀ q, x.owner = some q → q = p)
    (hhas : x.owner = some p → pc.has = some i)
    (hmine : ∀ j, j ≠ i → (s.disk.inode j).owner ≠ some p)
    (hpid : ∀ q, x.pid = some q → (s.disk.inode i).pid = some q ∨ q = p ∧ pc.signed)
    (hsigned : (s.pc p).signed → pc.signed) :
    OwnerStep path s p ((s.goto p pc).withDisk (s.disk.put i x)) where
  pc q hq := LockState.goto_ne _ _ hq _
  next := Nat.le_refl _
  keep j _ q hq ho := by
    rw [LockState.withDisk_disk, Disk.put_ne, ho]
    rintro rfl
    exact hfree q hq ho
  old j q hq ho := by
    rw [LockState.withDisk_disk] at ho
    by_cases hj : j = i
    · rw [hj, Disk.put_self] at ho
      exact absurd (hx q ho) hq
    · rwa [Disk.put_ne hj] at ho
  mine j ho := by
    rw [LockState.withDisk_disk] at ho
    rw [LockState.goto_self]
    by_cases hj : j = i
    · rw [hj, Disk.put_self] at ho
      exact hj ▸ hhas ho
    · rw [Disk.put_ne hj] at ho
      exact absurd ho (hmine j hj)
  pid j q h := by
    rw [LockState.withDisk_disk] at h
    rw [LockState.goto_self]
    by_cases hj : j = i
    · rw [hj, Disk.put_self] at h
      exact hj ▸ hpid q h
    · rw [Disk.put_ne hj] at h
      exact .inl h
  signed h := by
    rw [LockState.goto_self]
    exact .inl (hsigned h)
  entry j h := .inl h

omit [DecidableEq P] in
/-- What a process has, it owns. -/
theorem FlockInv.owner_of_has (hi : FlockInv path s) {i : Nat} (h : (s.pc p).has = some i) :
    (s.disk.inode i).owner = some p := by
  have hgood := hi.good p
  generalize s.pc p = pc at h hgood
  cases pc with
  | locked j wait => exact Option.some.inj h ▸ hgood.2
  | held j => exact Option.some.inj h ▸ hgood.2
  | failed j => exact Option.some.inj h ▸ hgood.2
  | idle => cases h
  | opened j wait => cases h
  | closing j => cases h
  | released j => cases h
  | closed => cases h

/-- **One step of `LockFile`**, where each lock is with who says so. -/
theorem LockStep.ownerStep {e : LockEvent P} (hs : LockStep path s e s') (hi : FlockInv path s)
    (hlen : path.length ≤ 511)
    (hmine : ∀ i, (s.disk.inode i).owner = some e.process → (s.pc e.process).has = some i) :
    OwnerStep path s e.process s' := by
  unfold LockStep at hs
  -- a process that has nothing owns nothing, one that has an inode owns only that
  have hnone : (s.pc e.process).has = none → ∀ i, (s.disk.inode i).owner ≠ some e.process := by
    intro h i ho
    have hhas := hmine i ho
    rw [h] at hhas
    cases hhas
  have hothers : ∀ {i}, (s.pc e.process).has = some i → ∀ q, q ≠ e.process →
      (s.disk.inode i).owner ≠ some q := by
    intro i h q hq ho
    exact hq (Option.some.inj (ho.symm.trans (hi.owner_of_has h)))
  have honly : ∀ {i}, (s.pc e.process).has = some i → ∀ j, j ≠ i →
      (s.disk.inode j).owner ≠ some e.process := by
    intro i h j hj ho
    exact hj (Option.some.inj ((hmine j ho).symm.trans h))
  cases e with
  | openPath p wait =>
    simp only [lockStep] at hs
    split at hs
    · rename_i hpc
      cases hs
      rw [LockEvent.process, hpc] at hnone
      have hinode := fun i => Disk.create_inode_or (d := s.disk) (n := path) (i := i)
        (a := (⟨none, none⟩ : LockInode P))
      refine ⟨fun q hq => LockState.goto_ne _ _ hq _, Disk.next_le_create, fun i hlt q _ ho => ?_,
        fun i q _ ho => ?_, fun i ho => ?_, fun i q h => ?_, fun h => ?_, fun i h => ?_⟩
      · rw [LockState.withDisk_disk, Disk.create_inode hlt, ho]
      · rw [LockState.withDisk_disk] at ho
        rcases hinode i with he | he <;> rw [he] at ho
        · exact ho
        · cases ho
      · rw [LockState.withDisk_disk] at ho
        rcases hinode i with he | he <;> rw [he] at ho
        · exact absurd ho (hnone rfl i)
        · cases ho
      · rw [LockState.withDisk_disk] at h
        rcases hinode i with he | he <;> rw [he] at h
        · exact .inl h
        · cases h
      · rw [LockEvent.process, hpc] at h
        cases h
      · rw [LockState.withDisk_disk] at h ⊢
        cases hn : s.disk.entry path with
        | some j =>
          rw [Disk.create_some hn, hn] at h
          exact .inl h
        | none =>
          rw [Disk.create_self, Disk.create_fst hn] at h
          obtain rfl := Option.some.inj h
          have hd := Disk.made_create hn (⟨none, none⟩ : LockInode P)
          exact .inr (by rw [hd.inode_self])
    · cases hs
  | again p =>
    have hsame : s' = s := by
      simp only [lockStep] at hs
      split at hs <;> cases hs <;> rfl
    subst hsame
    exact ⟨fun _ _ => rfl, Nat.le_refl _, fun _ _ _ _ ho => ho, fun _ _ _ ho => ho, hmine,
      fun _ _ h => .inl h, .inl, fun _ h => .inl h⟩
  | lock p =>
    simp only [lockStep] at hs
    split at hs
    · rename_i i wait hpc
      split at hs
      · cases hs
      · rename_i hfree
        cases hs
        rw [LockEvent.process, hpc] at hnone
        refine OwnerStep.put (fun q _ ho => hfree (by simp [ho]))
          (fun q hq => (Option.some.inj hq).symm) (fun _ => rfl) (fun j _ => hnone rfl j) (fun q hq => .inl hq) ?_
        simp [LockEvent.process, hpc, LockPc.signed]
    · cases hs
  | lockFails p =>
    simp only [lockStep] at hs
    split at hs
    · rename_i i wait hpc
      cases hs
      rw [LockEvent.process, hpc] at hnone
      exact OwnerStep.same rfl rfl (hnone rfl) (by simp [LockEvent.process, hpc, LockPc.signed])
        fun i hi => hi
    · cases hs
  | write p ok =>
    simp only [lockStep] at hs
    split at hs
    · rename_i i wait hpc
      cases hs
      have hhas : (s.pc (LockEvent.write p ok).process).has = some i := by
        rw [LockEvent.process, hpc]
        rfl
      have howner : (s.disk.inode i).owner = some p := hi.owner_of_has hhas
      refine OwnerStep.put (hothers hhas) (fun q hq => ?_) (fun _ => ?_) (honly hhas)
        (fun q hq => ?_) ?_
      · exact Option.some.inj (hq.symm.trans howner)
      · cases ok || !wait <;> rfl
      · cases ok
        · cases hq
        · exact .inr ⟨(Option.some.inj hq).symm, rfl⟩
      · simp [LockEvent.process, hpc, LockPc.signed]
    · cases hs
  | unlock p =>
    simp only [lockStep] at hs
    split at hs
    · rename_i i hpc
      cases hs
      have hhas : (s.pc (LockEvent.unlock p).process).has = some i := by
        rw [LockEvent.process, hpc]
        rfl
      exact OwnerStep.put (hothers hhas) (fun q hq => by cases hq) (fun h => by cases h) (honly hhas)
        (fun q hq => .inl hq) (by simp [LockEvent.process, hpc, LockPc.signed])
    · rename_i i hpc
      cases hs
      have hhas : (s.pc (LockEvent.unlock p).process).has = some i := by
        rw [LockEvent.process, hpc]
        rfl
      exact OwnerStep.put (hothers hhas) (fun q hq => by cases hq) (fun h => by cases h) (honly hhas)
        (fun q hq => .inl hq) (fun _ => rfl)
    · cases hs
  | close p =>
    simp only [lockStep] at hs
    split at hs
    · rename_i i hpc
      cases hs
      rw [LockEvent.process, hpc] at hnone
      exact OwnerStep.same rfl rfl (hnone rfl) (by simp [LockEvent.process, hpc, LockPc.signed])
        fun i hi => hi
    · rename_i i hpc
      cases hs
      rw [LockEvent.process, hpc] at hnone
      exact OwnerStep.same rfl rfl (hnone rfl) (fun _ => .inl rfl) fun i hi => hi
    · cases hs
  | unlink p =>
    simp only [lockStep] at hs
    split at hs
    · rename_i hpc
      cases hs
      rw [LockEvent.process, hpc] at hnone
      rw [List.take_of_length_le hlen]
      refine OwnerStep.same rfl rfl (hnone rfl) (fun _ => .inr ?_) fun i hi => ?_
      · rw [Disk.unlink_entry, if_pos rfl]
      · rw [Disk.unlink_entry, if_pos rfl] at hi
        cases hi
    · cases hs

/-- The path leads where it led, but for an `unlink`. -/
theorem LockStep.entry_or {e : LockEvent P} (hs : LockStep path s e s') {i : Nat}
    (he : s.disk.entry path = some i) : s'.disk.entry path = some i ∨ ∃ p, e = .unlink p := by
  unfold LockStep at hs
  cases e with
  | unlink p => exact .inr ⟨p, rfl⟩
  | openPath p wait =>
    simp only [lockStep] at hs
    split at hs <;> cases hs
    exact .inl (by rw [Disk.create_some he]; exact he)
  | lock p =>
    simp only [lockStep] at hs
    split at hs <;> (try split at hs) <;> cases hs
    exact .inl he
  | again p => simp only [lockStep] at hs; split at hs <;> cases hs <;> exact .inl he
  | lockFails p => simp only [lockStep] at hs; split at hs <;> cases hs; exact .inl he
  | write p ok => simp only [lockStep] at hs; split at hs <;> cases hs; exact .inl he
  | unlock p => simp only [lockStep] at hs; split at hs <;> cases hs <;> exact .inl he
  | close p => simp only [lockStep] at hs; split at hs <;> cases hs <;> exact .inl he

end Owners

/-! ## 3. One step -/

section Step

variable {path : Bytes} {s s' : ProbeState P Q} {q : Q}

/-- Each lock is with who is in the middle of having it, and the PID in the file is that of a process
that has the lock or gives it up. -/
structure ProbeInv (path : Bytes) (s : ProbeState P Q) : Prop where
  flock : FlockInv path s.lock
  idle : ∀ q, s.lock.pc (.inr q) = .idle
  has : ∀ i x, (s.lock.disk.inode i).owner = some x → s.Has i x
  opened : ∀ q i, s.probe q = .opened i → i < s.lock.disk.next
  got : ∀ q i, s.probe q = .got i →
    i < s.lock.disk.next ∧ (s.lock.disk.inode i).owner = some (.inr q)
  signed : ∀ i x, s.lock.disk.entry path = some i → (s.lock.disk.inode i).pid = some x →
    (s.lock.pc x).signed

/-- The `open` of who asks. -/
theorem probeStep_openPath {ok : Bool} (hs : probeStep path s (.openPath q ok) = some s') :
    (∀ i, s.probe q ≠ .got i) ∧
      ((∃ i, s.lock.disk.entry path = some i ∧ s' = s.goto q (.opened i)) ∨
        (ok = false ∨ s.lock.disk.entry path = none) ∧ s' = s.goto q (.returned 0 none)) := by
  have hopen : (match if ok then s.lock.disk.entry path else none with
      | some i => some (s.goto q (.opened i))
      | none => some (s.goto q (.returned 0 none))) = some s' →
      (∃ i, s.lock.disk.entry path = some i ∧ s' = s.goto q (.opened i)) ∨
        (ok = false ∨ s.lock.disk.entry path = none) ∧ s' = s.goto q (.returned 0 none) := by
    intro h
    split at h
    · rename_i i hi
      exact .inl ⟨i, (Option.ite_none_right_eq_some.mp hi).2, (Option.some.inj h).symm⟩
    · rename_i hnone
      refine .inr ⟨?_, (Option.some.inj h).symm⟩
      cases ok
      · exact .inl rfl
      · exact .inr hnone
  simp only [probeStep] at hs
  split at hs
  · rename_i hpc
    exact ⟨fun i h => by simp [hpc] at h, hopen hs⟩
  · rename_i answer holder hpc
    exact ⟨fun i h => by simp [hpc] at h, hopen hs⟩
  · cases hs

omit [DecidableEq P] in
/-- A step of who asks that changes no lock. -/
theorem ProbeInv.goto (hi : ProbeInv path s) {pc : ProbePc P Q} (hq : ∀ i, s.probe q ≠ .got i)
    (hopened : ∀ i, pc = .opened i → i < s.lock.disk.next) (hgot : ∀ i, pc ≠ .got i) :
    ProbeInv path (s.goto q pc) where
  flock := hi.flock
  idle := hi.idle
  has i x ho := by
    have hx := hi.has i x ho
    cases x with
    | inl p => exact hx
    | inr r =>
      have hr : r ≠ q := by
        rintro rfl
        exact hq i hx
      exact ProbeState.goto_probe.trans ((if_neg hr).trans hx)
  opened r i h := by
    rw [ProbeState.goto_probe] at h
    split at h
    · exact hopened i h
    · exact hi.opened r i h
  got r i h := by
    rw [ProbeState.goto_probe] at h
    split at h
    · exact absurd h (hgot i)
    · exact hi.got r i h
  signed := hi.signed

/-- A step of who asks that takes a free lock or gives its own back. -/
theorem ProbeInv.own (hi : ProbeInv path s) {pc : ProbePc P Q} {i : Nat} {x : Option (P ⊕ Q)}
    (hothers : ∀ y, y ≠ .inr q → (s.lock.disk.inode i).owner ≠ some y)
    (honly : ∀ j, j ≠ i → s.probe q ≠ .got j) (hlt : i < s.lock.disk.next)
    (hpc : x = some (.inr q) ∧ pc = .got i ∨ x = none ∧ ∃ a h, pc = .closing a h) :
    ProbeInv path ((s.goto q pc).own i x) where
  flock := by
    refine ⟨hi.flock.ok, fun y => ?_⟩
    by_cases hy : y = .inr q
    · -- who asks makes no call of `LockFile`
      rw [ProbeState.own_pc, ProbeState.goto_lock, hy, hi.idle q]
      trivial
    · exact (hi.flock.good y).put (hothers y hy) _
  idle := hi.idle
  has j y ho := by
    rw [ProbeState.own_owner] at ho
    split at ho
    · rename_i hj
      subst hj
      rcases hpc with ⟨rfl, rfl⟩ | ⟨rfl, -⟩
      · obtain rfl := Option.some.inj ho
        exact ProbeState.goto_self
      · cases ho
    · rename_i hj
      have hy := hi.has j y ho
      cases y with
      | inl p => exact hy
      | inr r =>
        have hr : r ≠ q := by
          rintro rfl
          exact honly j hj hy
        exact ProbeState.goto_probe.trans ((if_neg hr).trans hy)
  opened r j h := by
    rw [ProbeState.own_probe, ProbeState.goto_probe] at h
    split at h
    · rcases hpc with ⟨-, rfl⟩ | ⟨-, a, b, rfl⟩ <;> cases h
    · exact hi.opened r j h
  got r j h := by
    rw [ProbeState.own_probe, ProbeState.goto_probe] at h
    rw [ProbeState.own_next, ProbeState.goto_lock, ProbeState.own_owner]
    split at h
    · rename_i hr
      rcases hpc with ⟨rfl, rfl⟩ | ⟨-, a, b, rfl⟩
      · cases h
        exact ⟨hlt, by rw [if_pos rfl, hr]⟩
      · cases h
    · rename_i hr
      obtain ⟨hjlt, howner⟩ := hi.got r j h
      refine ⟨hjlt, ?_⟩
      rw [if_neg, ProbeState.goto_lock, howner]
      rintro rfl
      exact hothers (.inr r) (fun he => hr (Sum.inr.inj he)) howner
  signed j y he hp := by
    rw [ProbeState.own_pid] at hp
    exact hi.signed j y he hp

/-- A step of `LockFile` beside those who ask. -/
theorem ProbeInv.call (hi : ProbeInv path s) (hlen : path.length ≤ 511) {e : LockEvent (P ⊕ Q)} {p : P}
    (hp : e.process = .inl p) {l : LockState (P ⊕ Q)} (hs : LockStep path s.lock e l)
    (hc : e.Clear path s.lock) : ProbeInv path { s with lock := l } := by
  have hstep : OwnerStep path s.lock e.process l :=
    hs.ownerStep hi.flock hlen fun i ho => by
      rw [hp] at ho ⊢
      exact hi.has i _ ho
  have hne : ∀ q : Q, .inr q ≠ e.process := fun q h => by
    rw [hp] at h
    cases h
  refine ⟨hs.inv hc hi.flock, fun q => ?_, fun i x ho => ?_, fun q i h => ?_, fun q i h => ?_,
    fun i x he hpid => ?_⟩
  · rw [hstep.pc _ (hne q), hi.idle q]
  · by_cases hx : x = e.process
    · rw [hx] at ho ⊢
      have hmine := hstep.mine i ho
      rw [hp] at hmine ⊢
      exact hmine
    · have hold := hi.has i x (hstep.old i x hx ho)
      cases x with
      | inl r =>
        change (l.pc (.inl r)).has = some i
        rw [hstep.pc _ hx]
        exact hold
      | inr q => exact hold
  · exact Nat.lt_of_lt_of_le (hi.opened q i h) hstep.next
  · obtain ⟨hlt, howner⟩ := hi.got q i h
    exact ⟨Nat.lt_of_lt_of_le hlt hstep.next, hstep.keep i hlt _ (hne q) howner⟩
  · rcases hstep.pid i x hpid with hold | ⟨rfl, hsigned⟩
    · rcases hstep.entry i he with hentry | hfresh
      · have hsigned := hi.signed i x hentry hold
        by_cases hx : x = e.process
        · subst hx
          exact (hstep.signed hsigned).resolve_right fun hnone => by
            rw [hnone] at he
            cases he
        · rwa [hstep.pc _ hx]
      · rw [hfresh] at hpid
        cases hpid
    · exact hsigned

/-- **One step.** -/
theorem RegularStep.inv {e : ProbeEvent P Q} (hs : RegularStep path s e s') (hlen : path.length ≤ 511)
    (hi : ProbeInv path s) : ProbeInv path s' := by
  obtain ⟨hs, hregular⟩ := hs
  cases e with
  | call e =>
    simp only [probeStep] at hs
    split at hs
    · rename_i hleft
      obtain ⟨p, hp⟩ := Sum.isLeft_iff.mp hleft
      obtain ⟨l, hl, rfl⟩ := Option.map_eq_some_iff.mp hs
      exact hi.call hlen hp hl hregular
    · cases hs
  | openPath q ok =>
    obtain ⟨hstart, ⟨i, he, rfl⟩ | ⟨-, rfl⟩⟩ := probeStep_openPath hs
    · refine hi.goto hstart ?_ (by simp)
      intro j hj
      obtain rfl := ProbePc.opened.inj hj
      exact hi.flock.ok _ _ he
    · exact hi.goto hstart (by simp) (by simp)
  | flock q ok =>
    simp only [probeStep] at hs
    split at hs
    · rename_i i hpc
      have hstart : ∀ i, s.probe q ≠ .got i := fun i h => by simp [hpc] at h
      split at hs
      · rename_i hfree
        cases hs
        exact hi.own (fun y _ => by simp [hfree.2]) (fun j _ => hstart j) (hi.opened q i hpc)
          (.inl ⟨rfl, rfl⟩)
      · cases hs
        exact hi.goto hstart (by simp) (by simp)
    · cases hs
  | getHolder q =>
    simp only [probeStep] at hs
    split at hs
    · rename_i i hpc
      cases hs
      exact hi.goto (fun j h => by simp [hpc] at h) (by simp) (by simp)
    · cases hs
  | unlock q =>
    simp only [probeStep] at hs
    split at hs
    · rename_i i hpc
      cases hs
      obtain ⟨hlt, howner⟩ := hi.got q i hpc
      refine hi.own (fun y hy ho => hy ?_) (fun j hj h => hj ?_) hlt (.inr ⟨rfl, _, _, rfl⟩)
      · exact Option.some.inj (ho.symm.trans howner)
      · rw [hpc] at h
        exact (ProbePc.got.inj h).symm
    · cases hs
  | close q =>
    simp only [probeStep] at hs
    split at hs
    · rename_i i hpc
      cases hs
      exact hi.goto (fun j h => by simp [hpc] at h) (by simp) (by simp)
    · rename_i answer holder hpc
      cases hs
      exact hi.goto (fun j h => by simp [hpc] at h) (by simp) (by simp)
    · cases hs

end Step

/-! ## 4. Runs -/

section Runs

variable {path : Bytes} {s s₀ : ProbeState P Q}

omit [DecidableEq P] [DecidableEq Q] in
theorem ProbeState.Start.inv (h : s.Start) : ProbeInv path s where
  flock := h.lock.inv
  idle q := h.lock.idle _
  has i x ho := by
    rw [h.free i] at ho
    cases ho
  opened q i hq := by
    rw [h.idle q] at hq
    cases hq
  got q i hq := by
    rw [h.idle q] at hq
    cases hq
  signed i x _ hp := by
    rw [h.free i] at hp
    cases hp

omit [DecidableEq P] [DecidableEq Q] in
/-- Who has the lock has the inode of the path. -/
theorem ProbeInv.unheld (hi : ProbeInv path s)
    (h : ∀ i, s.lock.disk.entry path = some i → ∀ p, (s.lock.disk.inode i).owner ≠ some (.inl p)) :
    Unheld s := by
  intro p i hp
  have hgood := hi.flock.good (.inl p)
  rw [hp] at hgood
  exact h i hgood.1 p hgood.2

/-- A step leaves alone who does not make it. -/
theorem probeStep_quiet {s' : ProbeState P Q} {e : ProbeEvent P Q} {q : Q}
    (hs : probeStep path s e = some s') (hq : e.prober ≠ some q) : s'.probe q = s.probe q := by
  have hgoto : ∀ {r pc}, some r ≠ some q → (s.goto r pc).probe q = s.probe q := fun hr =>
    ProbeState.goto_probe.trans (if_neg fun h => hr (congrArg some h.symm))
  cases e with
  | call e =>
    simp only [probeStep] at hs
    split at hs
    · obtain ⟨l, -, rfl⟩ := Option.map_eq_some_iff.mp hs
      rfl
    · cases hs
  | openPath r ok =>
    obtain ⟨-, ⟨i, -, rfl⟩ | ⟨-, rfl⟩⟩ := probeStep_openPath hs <;> exact hgoto hq
  | flock r ok =>
    simp only [probeStep] at hs
    split at hs
    · split at hs <;> cases hs <;> exact hgoto hq
    · cases hs
  | getHolder r =>
    simp only [probeStep] at hs
    split at hs <;> cases hs
    exact hgoto hq
  | unlock r =>
    simp only [probeStep] at hs
    split at hs <;> cases hs
    exact hgoto hq
  | close r =>
    simp only [probeStep] at hs
    split at hs <;> cases hs <;> exact hgoto hq

/-- The path goes on to lead where it does, or nobody has the lock. -/
theorem RegularStep.entry_or {s' : ProbeState P Q} {e : ProbeEvent P Q}
    (hs : RegularStep path s e s') (hlen : path.length ≤ 511) (hi : ProbeInv path s) {i : Nat}
    (he : s.lock.disk.entry path = some i) : s'.lock.disk.entry path = some i ∨ Unheld s := by
  obtain ⟨hs, hregular⟩ := hs
  cases e with
  | call e =>
    simp only [probeStep] at hs
    split at hs
    · obtain ⟨l, hl, rfl⟩ := Option.map_eq_some_iff.mp hs
      rcases LockStep.entry_or hl he with h | ⟨p, rfl⟩
      · exact .inl h
      · -- who has the lock has opened the inode that is unlinked
        have hclear : ∀ x, (s.lock.pc x).uses ≠ some i :=
          hregular i (by rw [List.take_of_length_le hlen, he])
        refine .inr fun p j hp => hclear (.inl p) ?_
        have hgood := hi.flock.good (.inl p)
        rw [hp] at hgood ⊢
        exact hgood.1.symm.trans he
    · cases hs
  | openPath q ok =>
    obtain ⟨-, ⟨j, -, rfl⟩ | ⟨-, rfl⟩⟩ := probeStep_openPath hs <;> exact .inl he
  | flock q ok =>
    simp only [probeStep] at hs
    split at hs
    · split at hs <;> cases hs <;> exact .inl he
    · cases hs
  | getHolder q =>
    simp only [probeStep] at hs
    split at hs <;> cases hs
    exact .inl he
  | unlock q =>
    simp only [probeStep] at hs
    split at hs <;> cases hs
    exact .inl he
  | close q =>
    simp only [probeStep] at hs
    split at hs <;> cases hs <;> exact .inl he

/-- Who makes no step stays where it is. -/
theorem probe_quiet {tr : List (ProbeEvent P Q)} {q : Q} (hquiet : ∀ e ∈ tr, e.prober ≠ some q)
    (hrun : Run (RegularStep path) s₀ tr s) : s.probe q = s₀.probe q := by
  induction hrun with
  | refl => rfl
  | @snoc tr t e u hr hs ih =>
    rw [probeStep_quiet hs.1 (hquiet e (by simp)),
      ih fun e' he' => hquiet e' (List.mem_append_left _ he')]

/-- **Either the path still leads where it led, or nobody had the lock at some moment.** -/
theorem entry_or_unheld (hlen : path.length ≤ 511) {tr : List (ProbeEvent P Q)} {i : Nat}
    (hi : ProbeInv path s₀) (hentry : s₀.lock.disk.entry path = some i)
    (hrun : Run (RegularStep path) s₀ tr s) :
    s.lock.disk.entry path = some i ∨ ∃ tr₁ tr₂ u, tr = tr₁ ++ tr₂ ∧
      Run (RegularStep path) s₀ tr₁ u ∧ Run (RegularStep path) u tr₂ s ∧ Unheld u := by
  induction hrun with
  | refl => exact .inl hentry
  | @snoc tr t e u hr hs ih =>
    have hinv : ProbeInv path t := hr.preserve (fun _ _ _ h hs => hs.inv hlen h) hi
    rcases ih with he | ⟨tr₁, tr₂, v, rfl, h1, h2, hv⟩
    · rcases hs.entry_or hlen hinv he with h | h
      · exact .inl h
      · exact .inr ⟨tr, [e], t, rfl, hr, Run.single hs, h⟩
    · exact .inr ⟨tr₁, tr₂ ++ [e], v, List.append_assoc .., h1, Run.snoc h2 hs, hv⟩

end Runs

/-! ## 5. Asked twice -/

section Decide

variable [Fintype P] [Fintype Q] (path : Bytes) (s : ProbeState P Q)

instance : ∀ e : LockEvent (P ⊕ Q), Decidable (e.Clear path s.lock)
  | .unlink _ => inferInstanceAs (Decidable (∀ i ∈ s.lock.disk.entry (path.take 511), ∀ x,
      (s.lock.pc x).uses ≠ some i))
  | .openPath _ _ => .isTrue trivial
  | .again _ => .isTrue trivial
  | .lock _ => .isTrue trivial
  | .lockFails _ => .isTrue trivial
  | .write _ _ => .isTrue trivial
  | .unlock _ => .isTrue trivial
  | .close _ => .isTrue trivial

instance : ∀ e : ProbeEvent P Q, Decidable (e.Regular path s)
  | .call e => inferInstanceAs (Decidable (e.Clear path s.lock))
  | .openPath _ ok => inferInstanceAs (Decidable (ok = false → s.lock.disk.entry path = none))
  | .flock _ ok => inferInstanceAs (Decidable (ok = true))
  | .getHolder _ => .isTrue trivial
  | .unlock _ => .isTrue trivial
  | .close _ => .isTrue trivial

def regularNext (e : ProbeEvent P Q) : Option (ProbeState P Q) :=
  if e.Regular path s then probeStep path s e else none

variable {path s}

theorem regularNext_eq_some {e : ProbeEvent P Q} {s' : ProbeState P Q} :
    regularNext path s e = some s' ↔ RegularStep path s e s' := by
  rw [regularNext, Option.ite_none_right_eq_some, RegularStep, and_comm]

end Decide

/-- No lock file yet. -/
def ProbeState.init : ProbeState P Q := ⟨.init, fun _ => .idle⟩

omit [DecidableEq P] [DecidableEq Q] in
theorem ProbeState.init_start : (ProbeState.init : ProbeState P Q).Start where
  lock := LockState.init_start
  idle _ := rfl
  free _ := rfl

/-- A caller asks while the process has the lock, and again when it has unlocked it. -/
def askTwice : List (ProbeEvent Unit Unit) :=
  [.call (.openPath (.inl ()) true), .call (.lock (.inl ())), .call (.write (.inl ()) true),
    .openPath () true, .flock () true, .getHolder (), .close (), .openPath () true,
    .call (.unlock (.inl ())), .flock () true]

end ReproVM
