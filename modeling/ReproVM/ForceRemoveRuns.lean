/-
# When a live lock is safe from a forced removal

The runs of `ForceRemove`.  The invariant says what a removal in progress knows: while a live process
has the lock of the path, the removal has that file open, or has that PID in hand, or has not begun;
it never stands before its `unlink`.  Careful steps keep this (`live_lock_kept`), and each way of not
being careful ends in a live lock that is removed.

That the PID in hand is the right one takes who owns each inode: only the owner of a lock writes the
file, so what a holder has written is still there.
-/
import ReproVM.ForceRemove
import Mathlib.Data.Fintype.Basic

namespace ReproVM

open Bytes (ascii)
open Lib (Disk Run)

variable {P : Type} [DecidableEq P]

/-! ## 1. Locks and their owners -/

/-- What a process has locked is its own, and what it has opened was made. -/
def LockPc.Owns (d : Disk Bytes (LockInode P)) (p : P) : LockPc → Prop
  | .opened i _ => i < d.next
  | .locked i _ => i < d.next ∧ (d.inode i).owner = some p
  | .failed i => i < d.next ∧ (d.inode i).owner = some p
  | .held i => i < d.next ∧ (d.inode i).owner = some p
  | _ => True

structure OwnsInv (s : LockState P) : Prop where
  ok : s.disk.Ok
  owns : ∀ p, (s.pc p).Owns s.disk p

section Owns

variable {path : Bytes} {s s' : LockState P} {p : P}

omit [DecidableEq P] in
/-- A lock stays with who has it. -/
theorem LockPc.Owns.mono {d d' : Disk Bytes (LockInode P)} {q : P} {pc : LockPc} (h : pc.Owns d q)
    (hnext : d.next ≤ d'.next)
    (howner : ∀ i < d.next, (d.inode i).owner = some q → (d'.inode i).owner = some q) :
    pc.Owns d' q := by
  have hkeep : ∀ {i}, i < d.next ∧ (d.inode i).owner = some q →
      i < d'.next ∧ (d'.inode i).owner = some q :=
    fun ⟨hlt, ho⟩ => ⟨Nat.lt_of_lt_of_le hlt hnext, howner _ hlt ho⟩
  cases pc with
  | opened i wait => exact Nat.lt_of_lt_of_le h hnext
  | locked i wait => exact hkeep h
  | failed i => exact hkeep h
  | held i => exact hkeep h
  | idle => trivial
  | closing i => trivial
  | released i => trivial
  | closed => trivial

/-- A step of the process `p`, from what it does to the disk. -/
theorem OwnsInv.process (hi : OwnsInv s) {d : Disk Bytes (LockInode P)} {pc : LockPc} (hok : d.Ok)
    (hself : pc.Owns d p) (hnext : s.disk.next ≤ d.next)
    (howner : ∀ q, q ≠ p → ∀ i < s.disk.next, (s.disk.inode i).owner = some q →
      (d.inode i).owner = some q) : OwnsInv ((s.goto p pc).withDisk d) where
  ok := hok
  owns q := by
    by_cases hq : q = p
    · rw [hq, LockState.goto_self]
      exact hself
    · rw [LockState.goto_ne _ _ hq]
      exact (hi.owns q).mono hnext (howner q hq)

/-- The process `p` changes an inode that no other has locked. -/
theorem OwnsInv.put (hi : OwnsInv s) {pc : LockPc} {i : Nat} {x : LockInode P}
    (hfree : ∀ q, q ≠ p → (s.disk.inode i).owner ≠ some q) (hself : pc.Owns (s.disk.put i x) p) :
    OwnsInv ((s.goto p pc).withDisk (s.disk.put i x)) := by
  refine hi.process hi.ok hself (Nat.le_refl _) ?_
  intro q hq j _ hj
  rw [Disk.put_ne, hj]
  rintro rfl
  exact hfree q hq hj

/-- **One step of a call** keeps the owners. -/
theorem LockStep.owns {e : LockEvent P} (hs : LockStep path s e s') (hi : OwnsInv s) :
    OwnsInv s' := by
  unfold LockStep at hs
  have hown := hi.owns e.process
  have hother : ∀ {i}, (s.disk.inode i).owner = some e.process →
      ∀ q, q ≠ e.process → (s.disk.inode i).owner ≠ some q := by
    intro i ho q hq hoq
    exact hq (Option.some.inj (hoq.symm.trans ho))
  cases e with
  | openPath p wait =>
    simp only [lockStep] at hs
    split at hs
    · cases hs
      refine hi.process hi.ok.create hi.ok.create_lt Disk.next_le_create ?_
      intro q _ i hlt ho
      rw [Disk.create_inode hlt, ho]
    · cases hs
  | again p =>
    simp only [lockStep] at hs
    split at hs <;> cases hs <;> exact hi
  | lock p =>
    simp only [lockStep] at hs
    split at hs
    · rename_i i wait hpc
      split at hs
      · cases hs
      · rename_i hfree
        cases hs
        rw [LockEvent.process, hpc] at hown
        refine hi.put (fun q _ ho => hfree (by simp [ho])) ⟨hown, ?_⟩
        rw [Disk.put_self]
    · cases hs
  | lockFails p =>
    simp only [lockStep] at hs
    split at hs
    · cases hs
      exact hi.process hi.ok trivial (Nat.le_refl _) fun _ _ _ _ ho => ho
    · cases hs
  | write p ok =>
    simp only [lockStep] at hs
    split at hs
    · rename_i i wait hpc
      cases hs
      rw [LockEvent.process, hpc] at hown
      refine hi.put (hother hown.2) ?_
      cases ok || !wait <;> exact ⟨hown.1, by rw [Disk.put_self]; exact hown.2⟩
    · cases hs
  | unlock p =>
    simp only [lockStep] at hs
    split at hs
    · rename_i i hpc
      cases hs
      rw [LockEvent.process, hpc] at hown
      exact hi.put (hother hown.2) trivial
    · rename_i i hpc
      cases hs
      rw [LockEvent.process, hpc] at hown
      exact hi.put (hother hown.2) trivial
    · cases hs
  | close p =>
    simp only [lockStep] at hs
    split at hs
    · cases hs
      exact hi.process hi.ok trivial (Nat.le_refl _) fun _ _ _ _ ho => ho
    · cases hs
      exact hi.process hi.ok trivial (Nat.le_refl _) fun _ _ _ _ ho => ho
    · cases hs
  | unlink p =>
    simp only [lockStep] at hs
    split at hs
    · cases hs
      exact hi.process hi.ok.unlink trivial (Nat.le_refl _) fun _ _ _ _ ho => ho
    · cases hs

omit [DecidableEq P] in
/-- What one process has locked, no other holds. -/
theorem OwnsInv.held_ne (hi : OwnsInv s) {i j : Nat} {wait : Bool} (hp : s.pc p = .locked i wait)
    {q : P} (hq : s.pc q = .held j) : j ≠ i := by
  have hown := hi.owns p
  have hown' := hi.owns q
  rw [hp] at hown
  rw [hq] at hown'
  rintro rfl
  obtain rfl : q = p := Option.some.inj (hown'.2.symm.trans hown.2)
  rw [hp] at hq
  cases hq

theorem OwnsInv.drop (hi : OwnsInv s) (p : P) : OwnsInv (s.drop p) where
  ok := hi.ok
  owns q := by
    by_cases hq : q = p
    · rw [hq, LockState.drop_pc_self]
      trivial
    · rw [LockState.drop_pc_ne _ _ hq]
      refine (hi.owns q).mono (Nat.le_refl _) ?_
      intro i _ ho
      rw [LockState.drop_owner, ho, if_neg fun h => hq (Option.some.inj h)]

end Owns

/-! ## 2. The invariant -/

/-- What a forced removal knows of a live lock: it has its file open, or its PID in hand; and where it
will unlink there is none. -/
def ForcePc.Allows (pid : P → Pid) (i : Nat) (q : P) : ForcePc → Prop
  | .idle => True
  | .opened j => i = j
  | .probing holder => holder = (pid q).val
  | .removing => False

structure ForceInv (path : Bytes) (pid : P → Pid) (s : ForceState P) : Prop where
  owns : OwnsInv s.lock
  /-- A holder that has written all of its PID finds it at the start of the file. -/
  text : ∀ i q, s.lock.pc q = .held i → (s.lock.disk.inode i).pid = some q →
    ∃ rest, s.text i = pidText (pid q) ++ rest
  allows : ∀ p i q, s.Holds path i q → (s.force p).Allows pid i q

/-- What a step of `LockFile` does, but for the writes: nobody comes to hold a lock, no PID changes,
and the lock of the path is the one that was there or was granted now. -/
structure CallEffect (path : Bytes) (s : LockState P) (e : LockEvent P) (s' : LockState P) : Prop where
  held : ∀ q i, s'.pc q = .held i → s.pc q = .held i
  pid : ∀ i < s.disk.next, (s'.disk.inode i).pid = (s.disk.inode i).pid
  owner : ∀ i q, s'.disk.entry path = some i → (s'.disk.inode i).owner = some q →
    s.disk.entry path = some i ∧
      ((s.disk.inode i).owner = some q ∨ e = .lock q ∧ ∃ wait, s.pc q = .opened i wait)

section Effect

variable {path : Bytes} {s s' : LockState P} {p : P}

/-- A step of the process `p` that does not end with the lock in hand. -/
theorem goto_held {d : Disk Bytes (LockInode P)} {pc : LockPc} (hpc : ∀ i, pc ≠ .held i) {q : P}
    {i : Nat} (h : ((s.goto p pc).withDisk d).pc q = .held i) : s.pc q = .held i := by
  by_cases hq : q = p
  · rw [hq, LockState.goto_self] at h
    exact absurd h (hpc i)
  · rwa [LockState.goto_ne _ _ hq] at h

/-- A step that changes no inode. -/
theorem CallEffect.same {e : LockEvent P} {d : Disk Bytes (LockInode P)} {pc : LockPc}
    (hpc : ∀ i, pc ≠ .held i) (hinode : d.inode = s.disk.inode)
    (hentry : ∀ i, d.entry path = some i → s.disk.entry path = some i) :
    CallEffect path s e ((s.goto p pc).withDisk d) where
  held _ _ h := goto_held hpc h
  pid i _ := by rw [LockState.withDisk_disk, hinode]
  owner i q he ho := by
    rw [LockState.withDisk_disk, hinode] at ho
    exact ⟨hentry i he, .inl ho⟩

/-- A step that unlocks an inode. -/
theorem CallEffect.unlocked {e : LockEvent P} {i : Nat} {pc : LockPc} (hpc : ∀ i, pc ≠ .held i) :
    CallEffect path s e ((s.goto p pc).withDisk
      (s.disk.put i { s.disk.inode i with owner := none })) where
  held _ _ h := goto_held hpc h
  pid j _ := by
    rw [LockState.withDisk_disk]
    by_cases hj : j = i
    · rw [hj, Disk.put_self]
    · rw [Disk.put_ne hj]
  owner j q he ho := by
    rw [LockState.withDisk_disk] at ho
    by_cases hj : j = i
    · rw [hj, Disk.put_self] at ho
      cases ho
    · rw [Disk.put_ne hj] at ho
      exact ⟨he, .inl ho⟩

theorem LockStep.effect {e : LockEvent P} (hs : LockStep path s e s')
    (hw : ∀ p ok, e ≠ .write p ok) : CallEffect path s e s' := by
  unfold LockStep at hs
  cases e with
  | openPath p wait =>
    simp only [lockStep] at hs
    split at hs
    · cases hs
      cases hn : s.disk.entry path with
      | some i =>
        rw [Disk.create_some hn]
        exact CallEffect.same (by simp) rfl fun j hj => hj
      | none =>
        have hd := Disk.made_create hn (⟨none, none⟩ : LockInode P)
        refine ⟨fun _ _ h => goto_held (by simp) h, fun i hi => ?_, fun i q he ho => ?_⟩
        · rw [LockState.withDisk_disk, hd.inode_lt i hi]
        · -- the file that was made is locked by nobody
          rw [LockState.withDisk_disk, hd.entry_self] at he
          obtain rfl := Option.some.inj he
          rw [LockState.withDisk_disk, hd.inode_self] at ho
          cases ho
    · cases hs
  | again p =>
    simp only [lockStep] at hs
    split at hs <;> cases hs <;>
      exact ⟨fun _ _ h => h, fun _ _ => rfl, fun _ _ he ho => ⟨he, .inl ho⟩⟩
  | lock p =>
    simp only [lockStep] at hs
    split at hs
    · rename_i i wait hpc
      split at hs
      · cases hs
      · cases hs
        refine ⟨fun _ _ h => goto_held (by simp) h, fun j _ => ?_, fun j q he ho => ?_⟩
        · rw [LockState.withDisk_disk]
          by_cases hj : j = i
          · rw [hj, Disk.put_self]
          · rw [Disk.put_ne hj]
        · rw [LockState.withDisk_disk] at ho
          refine ⟨he, ?_⟩
          by_cases hj : j = i
          · rw [hj, Disk.put_self] at ho
            obtain rfl := Option.some.inj ho
            exact .inr ⟨rfl, wait, hj ▸ hpc⟩
          · rw [Disk.put_ne hj] at ho
            exact .inl ho
    · cases hs
  | lockFails p =>
    simp only [lockStep] at hs
    split at hs
    · cases hs
      exact CallEffect.same (by simp) rfl fun j hj => hj
    · cases hs
  | write p ok => exact absurd rfl (hw p ok)
  | unlock p =>
    simp only [lockStep] at hs
    split at hs
    · cases hs
      exact CallEffect.unlocked (by simp)
    · cases hs
      exact CallEffect.unlocked (by simp)
    · cases hs
  | close p =>
    simp only [lockStep] at hs
    split at hs
    · cases hs
      exact CallEffect.same (by simp) rfl fun j hj => hj
    · cases hs
      exact CallEffect.same (by simp) rfl fun j hj => hj
    · cases hs
  | unlink p =>
    simp only [lockStep] at hs
    split at hs
    · cases hs
      refine CallEffect.same (by simp) rfl ?_
      intro j hj
      rw [Disk.unlink_entry] at hj
      split at hj
      · cases hj
      · exact hj
    · cases hs

/-- The writes of an acquire. -/
theorem lockStep_write {i : Nat} {wait : Bool} (hpc : s.pc p = .locked i wait) (ok : Bool) :
    lockStep path s (.write p ok) =
      some ((s.goto p (if ok || !wait then .held i else .failed i)).withDisk
        (s.disk.put i { s.disk.inode i with pid := if ok then some p else none })) := by
  simp only [lockStep, hpc]

end Effect

/-! ## 3. One step -/

section Step

variable {path : Bytes} {pid : P → Pid} {s s' : ForceState P} {p : P}

theorem forceStep_call {e : LockEvent P} (hw : ∀ p ok, e ≠ .write p ok) :
    forceStep path pid s (.call e) = (lockStep path s.lock e).map (s.called path e) := by
  cases e with
  | write p ok => exact absurd rfl (hw p ok)
  | openPath p wait => rfl
  | again p => rfl
  | lock p => rfl
  | lockFails p => rfl
  | unlock p => rfl
  | close p => rfl
  | unlink p => rfl

/-- The files that were there are as they were. -/
theorem called_text {e : LockEvent P} {l : LockState P} {i : Nat} (hi : i < s.lock.disk.next) :
    (s.called path e l).text i = s.text i := by
  unfold ForceState.called
  cases e with
  | openPath p wait =>
    dsimp only
    split
    · exact Function.update_of_ne (Nat.ne_of_lt hi) ..
    · rfl
  | again p => rfl
  | lock p => rfl
  | lockFails p => rfl
  | write p ok => rfl
  | unlock p => rfl
  | close p => rfl
  | unlink p => rfl

/-- A step of the removal itself. -/
theorem ForceInv.goto (hi : ForceInv path pid s) {pc : ForcePc}
    (hpc : ∀ i q, s.Holds path i q → pc.Allows pid i q) : ForceInv path pid (s.goto p pc) where
  owns := hi.owns
  text := hi.text
  allows r i q h := by
    unfold ForceState.goto
    dsimp only
    rw [Function.update_apply]
    split
    · exact hpc i q h
    · exact hi.allows r i q h

theorem ForceInv.call (hi : ForceInv path pid s) {e : LockEvent P} {l : LockState P}
    (hw : ∀ p ok, e ≠ .write p ok) (hl : lockStep path s.lock e = some l)
    (hc : (ForceEvent.call e).Careful path pid s) : ForceInv path pid (s.called path e l) := by
  have heff : CallEffect path s.lock e l := LockStep.effect hl hw
  refine ⟨LockStep.owns hl hi.owns, fun i q hpc hpid => ?_, fun r i q h => ?_⟩
  · have hheld := heff.held q i hpc
    have hown := hi.owns.owns q
    rw [hheld] at hown
    rw [called_text hown.1]
    exact hi.text i q hheld ((heff.pid i hown.1).symm.trans hpid)
  · obtain ⟨hentry, howner, halive⟩ := h
    obtain ⟨he, ho | ⟨rfl, wait, hpc⟩⟩ := heff.owner i q hentry howner
    · exact hi.allows r i q ⟨he, ho, halive⟩
    · -- a lock of the path is granted: no removal is past the file it has opened
      change (s.force r).Allows pid i q
      rcases hc i (by rw [hpc]; rfl) he r with hr | hr <;> rw [hr]
      · trivial
      · rfl

omit [DecidableEq P] in
/-- The process `p` changes the file it has locked. -/
theorem ForceInv.edit (hi : ForceInv path pid s) {i : Nat} {wait : Bool}
    (hpc : s.lock.pc p = .locked i wait) (t : Bytes) (b : P → Bool) :
    ForceInv path pid { s with text := Function.update s.text i t, truncated := b } where
  owns := hi.owns
  text j q hheld hpid := by
    dsimp only
    rw [Function.update_of_ne (hi.owns.held_ne hpc hheld)]
    exact hi.text j q hheld hpid
  allows := hi.allows

/-- The end of an acquire: the call holds the lock, or will give it up. -/
theorem ForceInv.written (hi : ForceInv path pid s) {i : Nat} {wait : Bool}
    (hpc : s.lock.pc p = .locked i wait) {ok : Bool} {t : Bytes}
    (ht : ok → ∃ rest, t = pidText (pid p) ++ rest) {l : LockState P}
    (hl : lockStep path s.lock (.write p ok) = some l) :
    ForceInv path pid { s with lock := l, text := Function.update s.text i t } := by
  have howns : OwnsInv l := LockStep.owns hl hi.owns
  rw [lockStep_write hpc] at hl
  obtain rfl := Option.some.inj hl
  have hedit := hi.edit hpc t s.truncated
  refine ⟨howns, fun j q hheld hpid => ?_, fun r j q h => hi.allows r j q ⟨h.1, ?_, h.2.2⟩⟩
  · rw [LockState.withDisk_disk] at hpid
    by_cases hq : q = p
    · subst hq
      rw [LockState.goto_self] at hheld
      obtain rfl : i = j := by
        split at hheld
        · exact LockPc.held.inj hheld
        · cases hheld
      rw [Disk.put_self] at hpid
      cases ok with
      | false => cases hpid
      | true =>
        dsimp only
        rw [Function.update_self]
        exact ht rfl
    · rw [LockState.goto_ne _ _ hq] at hheld
      rw [Disk.put_ne (hi.owns.held_ne hpc hheld)] at hpid
      exact hedit.text j q hheld hpid
  · have ho := h.2.1
    rw [LockState.withDisk_disk] at ho
    by_cases hj : j = i
    · rw [hj, Disk.put_self] at ho
      exact hj ▸ ho
    · rwa [Disk.put_ne hj] at ho

omit [DecidableEq P] in
/-- The path is gone, and with it what was to be kept. -/
theorem ForceInv.unlink (hi : ForceInv path pid s) :
    ForceInv path pid { s with lock := s.lock.withDisk (s.lock.disk.unlink path) } where
  owns := ⟨hi.owns.ok.unlink, fun q => (hi.owns.owns q).mono (Nat.le_refl _) fun _ _ ho => ho⟩
  text := hi.text
  allows r i q h := by
    have hentry := h.1
    rw [LockState.withDisk_disk, Disk.unlink_entry, if_pos rfl] at hentry
    cases hentry

theorem ForceInv.die (hi : ForceInv path pid s) :
    ForceInv path pid { s with lock := s.lock.drop p, alive := Function.update s.alive p false } where
  owns := hi.owns.drop p
  text i q hheld hpid := by
    have hq : q ≠ p := by
      rintro rfl
      rw [LockState.drop_pc_self] at hheld
      cases hheld
    rw [LockState.drop_pc_ne _ _ hq] at hheld
    rw [LockState.drop_pid] at hpid
    exact hi.text i q hheld hpid
  allows r i q h := by
    obtain ⟨hentry, howner, halive⟩ := h
    rw [LockState.drop_owner] at howner
    dsimp only at halive
    rw [Function.update_apply] at halive
    split at howner
    · cases howner
    · split at halive
      · cases halive
      · exact hi.allows r i q ⟨hentry, howner, halive⟩

omit [DecidableEq P] in
/-- What comes of the PID, where it is the one of the live lock. -/
theorem allows_forceCheck {holder : Int} {i : Nat} {q : P} (h : holder = (pid q).val) :
    (forceCheck holder).Allows pid i q := by
  have hpos : 0 < holder := by
    have := (pid q).pos
    omega
  rw [forceCheck, if_pos hpos]
  exact h

/-- **One step** of any process keeps the invariant, if it is careful. -/
theorem ForceStep.inv {e : ForceEvent P} (hs : ForceStep path pid s e s') (hc : e.Careful path pid s)
    (hi : ForceInv path pid s) : ForceInv path pid s' := by
  obtain ⟨halive, hstep, hans⟩ := hs
  cases e with
  | call e =>
    by_cases hw : ∀ p ok, e ≠ .write p ok
    · rw [forceStep_call hw, Option.map_eq_some_iff] at hstep
      obtain ⟨l, hl, rfl⟩ := hstep
      exact hi.call hw hl hc
    · push Not at hw
      obtain ⟨p, ok, rfl⟩ := hw
      cases hstep
  | truncate p ok =>
    simp only [forceStep] at hstep
    split at hstep
    · rename_i i wait hpc
      split at hstep
      · cases hstep
      · split at hstep
        · cases hstep
          exact hi.edit hpc [] _
        · split at hstep
          · obtain ⟨l, hl, rfl⟩ := Option.map_eq_some_iff.mp hstep
            -- what is in the file stays, and no PID counts as written
            have hgiveUp : ForceInv path pid
                { s with lock := l, text := Function.update s.text i (s.text i) } :=
              hi.written hpc (by simp) hl
            rwa [Function.update_eq_self] at hgiveUp
          · cases hstep
            exact ⟨hi.owns, hi.text, hi.allows⟩
    · cases hstep
  | write p n =>
    simp only [forceStep] at hstep
    split at hstep
    · rename_i i wait hpc
      split at hstep
      · obtain ⟨l, hl, rfl⟩ := Option.map_eq_some_iff.mp hstep
        refine hi.written hpc (fun hn => ?_) hl
        rw [List.take_of_length_le (of_decide_eq_true hn)]
        exact ⟨_, rfl⟩
      · cases hstep
    · cases hstep
  | fopen p ok =>
    simp only [forceStep] at hstep
    split at hstep
    · split at hstep
      · rename_i i hopen
        cases hstep
        refine hi.goto ?_
        intro j q h
        have hentry : s.lock.disk.entry path = some i := by
          cases ok with
          | false => cases hopen
          | true => exact hopen
        exact Option.some.inj (h.1.symm.trans hentry)
      · rename_i hopen
        cases hstep
        refine hi.goto ?_
        intro j q h
        cases ok with
        | false =>
          have hlive : s.liveLock path = some (j, q) := liveLock_eq_some.mpr h
          rw [hc rfl] at hlive
          cases hlive
        | true => exact absurd (h.1.symm.trans hopen) (by simp)
    · cases hstep
  | fscanf p ok =>
    simp only [forceStep] at hstep
    split at hstep
    · rename_i i hforce
      cases hstep
      refine hi.goto ?_
      intro j q h
      have hopened := hi.allows p j q h
      rw [hforce] at hopened
      obtain rfl : j = i := hopened
      obtain ⟨rfl, hheld, hpid⟩ := hc (j, q) (liveLock_eq_some.mpr h) hforce
      obtain ⟨rest, hrest⟩ := hi.text j q hheld hpid
      refine allows_forceCheck ?_
      rw [if_pos rfl, hrest, lockfileGetHolder_pidText]
    · cases hstep
  | kill p answer =>
    simp only [forceStep] at hstep
    split at hstep
    · rename_i holder hforce
      cases hstep
      refine hi.goto ?_
      intro j q h
      have hholder := hi.allows p j q h
      rw [hforce] at hholder
      -- the process is there, so the probe gives neither error
      cases answer with
      | success => trivial
      | esrch => exact (hans q h.2.2 (hholder ▸ hforce)).elim
      | eperm => exact (hc rfl (j, q) (liveLock_eq_some.mpr h) (hholder ▸ hforce)).elim
    · cases hstep
  | unlink p ok =>
    simp only [forceStep] at hstep
    split at hstep
    · have hgone : ForceInv path pid (s.goto p .idle) := hi.goto fun _ _ _ => trivial
      cases hstep
      cases ok with
      | false => exact hgone
      | true => exact hgone.unlink
    · cases hstep
  | die p =>
    have hgone : ForceInv path pid (s.goto p .idle) := hi.goto fun _ _ _ => trivial
    cases hstep
    exact hgone.die

end Step

/-! ## 4. Runs -/

def CarefulStep (path : Bytes) (pid : P → Pid) (s : ForceState P) (e : ForceEvent P)
    (s' : ForceState P) : Prop :=
  ForceStep path pid s e s' ∧ e.Careful path pid s

section Runs

variable {path : Bytes} {pid : P → Pid} {s s₀ : ForceState P}

omit [DecidableEq P] in
theorem ForceState.Start.inv (h : s.Start) : ForceInv path pid s where
  owns := by
    refine ⟨h.lock.disk, fun p => ?_⟩
    rw [h.lock.idle p]
    trivial
  text i q hheld := by
    rw [h.lock.idle q] at hheld
    cases hheld
  allows p i q _ := by
    rw [h.idle p]
    trivial

theorem ForceInv.liveLockKept (hi : ForceInv path pid s) : LiveLockKept path pid s := by
  intro p s' hs
  rw [Option.eq_none_iff_forall_ne_some]
  intro l h
  have hallows := hi.allows p l.1 l.2 (liveLock_eq_some.mp h)
  have hstep := hs.step
  simp only [forceStep] at hstep
  split at hstep
  · rename_i hforce
    rw [hforce] at hallows
    exact hallows
  · cases hstep

/-- **No live lock is removed**, for any number of processes and any interleaving of careful
steps. -/
theorem live_lock_kept (hstart : s₀.Start) {tr : List (ForceEvent P)}
    (hrun : Run (CarefulStep path pid) s₀ tr s) : LiveLockKept path pid s :=
  (hrun.preserve (fun _ _ _ hi hs => hs.1.inv hs.2 hi) hstart.inv).liveLockKept

/-! ## 5. What goes wrong

Each of the four, in any state, ends in a live lock that is removed. -/

theorem not_kept_of_removing {p : P} (hp : s.force p = .removing) (ha : s.alive p)
    {l : Nat × P} (hl : s.liveLock path = some l) : ¬ LiveLockKept path pid s := by
  intro h
  have hstep : ForceStep path pid s (.unlink p true) { s.goto p .idle with
      lock := s.lock.withDisk (s.lock.disk.unlink path) } :=
    ⟨ha, by simp [forceStep, hp], trivial⟩
  rw [h p _ hstep] at hl
  cases hl

theorem goto_not_kept {p : P} (ha : s.alive p) {l : Nat × P} (hl : s.liveLock path = some l) :
    ¬ LiveLockKept path pid (s.goto p .removing) :=
  not_kept_of_removing (Function.update_self ..) ha hl

/-- A holder of another user. -/
theorem eperm_removes {p : P} {holder : Int} (hp : s.force p = .probing holder) (ha : s.alive p)
    {l : Nat × P} (hl : s.liveLock path = some l) :
    ∃ s', ForceStep path pid s (.kill p .eperm) s' ∧ ¬ LiveLockKept path pid s' :=
  ⟨s.goto p .removing, ⟨ha, by simp [forceStep, hp, isProcessAlive], trivial⟩,
    goto_not_kept ha hl⟩

/-- A holder that has not written its PID. -/
theorem unwritten_removes {p : P} {i : Nat} (hp : s.force p = .opened i) (ha : s.alive p)
    (htext : scanInt (s.text i) = none) {l : Nat × P} (hl : s.liveLock path = some l) :
    ∃ s', ForceStep path pid s (.fscanf p true) s' ∧ ¬ LiveLockKept path pid s' :=
  ⟨s.goto p .removing,
    ⟨ha, by simp [forceStep, hp, lockfileGetHolder, htext, forceCheck], trivial⟩,
    goto_not_kept ha hl⟩

/-- A file that cannot be opened. -/
theorem unopened_removes {p : P} (hp : s.force p = .idle) (ha : s.alive p) {l : Nat × P}
    (hl : s.liveLock path = some l) :
    ∃ s', ForceStep path pid s (.fopen p false) s' ∧ ¬ LiveLockKept path pid s' :=
  ⟨s.goto p .removing, ⟨ha, by simp [forceStep, hp, forceCheck], trivial⟩, goto_not_kept ha hl⟩

/-- A lock that is granted before the `unlink`. -/
theorem late_lock_removes {p q : P} {i : Nat} {wait : Bool} (hp : s.force p = .removing)
    (ha : s.alive p) (hq : s.lock.pc q = .opened i wait) (haq : s.alive q)
    (hentry : s.lock.disk.entry path = some i) (hfree : (s.lock.disk.inode i).owner = none) :
    ∃ s', ForceStep path pid s (.call (.lock q)) s' ∧ ¬ LiveLockKept path pid s' := by
  let l := (s.lock.goto q (.locked i wait)).withDisk
    (s.lock.disk.put i { s.lock.disk.inode i with owner := some q })
  have hl : lockStep path s.lock (.lock q) = some l := by simp [lockStep, hq, hfree, l]
  refine ⟨s.called path (.lock q) l, ⟨haq, ?_, trivial⟩,
    @not_kept_of_removing _ _ _ _ _ _ hp ha (i, q) (liveLock_eq_some.mpr ⟨hentry, ?_, haq⟩)⟩
  · rw [forceStep_call (by simp), hl, Option.map_some]
  · change ((s.lock.disk.put i _).inode i).owner = some q
    rw [Disk.put_self]

end Runs

/-! ## 6. Two processes -/

section Decide

variable [Fintype P] (path : Bytes) (pid : P → Pid) (s : ForceState P)

instance : ∀ e : ForceEvent P, Decidable (e.Answered pid s)
  | .kill p .esrch => inferInstanceAs (Decidable (∀ q, s.alive q → s.force p ≠ .probing (pid q).val))
  | .kill _ .success => .isTrue trivial
  | .kill _ .eperm => .isTrue trivial
  | .call _ => .isTrue trivial
  | .truncate _ _ => .isTrue trivial
  | .write _ _ => .isTrue trivial
  | .fopen _ _ => .isTrue trivial
  | .fscanf _ _ => .isTrue trivial
  | .unlink _ _ => .isTrue trivial
  | .die _ => .isTrue trivial

instance : ∀ e : ForceEvent P, Decidable (e.Careful path pid s)
  | .call (.lock q) => inferInstanceAs (Decidable (∀ i ∈ (s.lock.pc q).uses,
      s.lock.disk.entry path = some i → ∀ p, s.force p = .idle ∨ s.force p = .opened i))
  | .fopen _ ok => inferInstanceAs (Decidable (ok = false → s.liveLock path = none))
  | .fscanf p ok => inferInstanceAs (Decidable (∀ l ∈ s.liveLock path, s.force p = .opened l.1 →
      ok = true ∧ s.lock.pc l.2 = .held l.1 ∧ (s.lock.disk.inode l.1).pid = some l.2))
  | .kill p answer => inferInstanceAs (Decidable (answer = .eperm →
      ∀ l ∈ s.liveLock path, s.force p ≠ .probing (pid l.2).val))
  | .call (.openPath _ _) => .isTrue trivial
  | .call (.again _) => .isTrue trivial
  | .call (.lockFails _) => .isTrue trivial
  | .call (.write _ _) => .isTrue trivial
  | .call (.unlock _) => .isTrue trivial
  | .call (.close _) => .isTrue trivial
  | .call (.unlink _) => .isTrue trivial
  | .truncate _ _ => .isTrue trivial
  | .write _ _ => .isTrue trivial
  | .unlink _ _ => .isTrue trivial
  | .die _ => .isTrue trivial

/-- A step that the system allows. -/
def forceNext (e : ForceEvent P) : Option (ForceState P) :=
  if s.alive e.process ∧ e.Answered pid s then forceStep path pid s e else none

/-- One that is careful too. -/
def carefulNext (e : ForceEvent P) : Option (ForceState P) :=
  if e.Careful path pid s then forceNext path pid s e else none

variable {path pid s}

theorem forceNext_eq_some {e : ForceEvent P} {s' : ForceState P} :
    forceNext path pid s e = some s' ↔ ForceStep path pid s e s' := by
  rw [forceNext, Option.ite_none_right_eq_some]
  exact ⟨fun ⟨⟨h1, h2⟩, h3⟩ => ⟨h1, h3, h2⟩, fun ⟨h1, h2, h3⟩ => ⟨⟨h1, h3⟩, h2⟩⟩

theorem carefulNext_eq_some {e : ForceEvent P} {s' : ForceState P} :
    carefulNext path pid s e = some s' ↔ CarefulStep path pid s e s' := by
  rw [carefulNext, Option.ite_none_right_eq_some, forceNext_eq_some, CarefulStep, and_comm]

end Decide

/-- No lock file yet. -/
def ForceState.init : ForceState P := ⟨.init, fun _ => [], fun _ => false, fun _ => true, fun _ => .idle⟩

omit [DecidableEq P] in
theorem ForceState.init_start : (ForceState.init : ForceState P).Start where
  lock := LockState.init_start
  idle _ := rfl

def twoPids : Bool → Pid
  | true => ⟨101, by decide, by decide⟩
  | false => ⟨102, by decide, by decide⟩

/-- An acquire of the first process, as far as the write of its PID. -/
def acquireSteps : List (ForceEvent Bool) :=
  [.call (.openPath true true), .call (.lock true), .truncate true true, .write true 4]

/-- The first process dies, and the second finds its lock stale. -/
def staleSteps : List (ForceEvent Bool) :=
  acquireSteps ++ [ForceEvent.die true, .fopen false true, .fscanf false true, .kill false .esrch]

/-- The second process may not signal the first. -/
def deniedSteps : List (ForceEvent Bool) :=
  acquireSteps ++ [ForceEvent.fopen false true, .fscanf false true, .kill false .eperm]

/-- A stale lock may be removed. -/
theorem live_lock_kept_stale : ∃ s : ForceState Bool,
    Run (CarefulStep (ascii ".reprovm/lock") twoPids) ForceState.init staleSteps s ∧
    s.force false = .removing ∧ LiveLockKept (ascii ".reprovm/lock") twoPids s := by
  have hforce : (staleSteps.foldlM (carefulNext (ascii ".reprovm/lock") twoPids)
      ForceState.init).map (fun s => s.force false) = some ForcePc.removing := by decide +kernel
  obtain ⟨s, hs, hremoving⟩ := Option.map_eq_some_iff.mp hforce
  have hrun := (Run.of_foldlM hs).imp fun _ _ _ h => carefulNext_eq_some.mp h
  exact ⟨s, hrun, hremoving, live_lock_kept ForceState.init_start hrun⟩

/-- **A live lock is removed**: the process that has it belongs to another user. -/
theorem live_lock_removed : ∃ s : ForceState Bool,
    Run (ForceStep (ascii ".reprovm/lock") twoPids) ForceState.init deniedSteps s ∧
    ¬ LiveLockKept (ascii ".reprovm/lock") twoPids s := by
  have hforce : (deniedSteps.foldlM (forceNext (ascii ".reprovm/lock") twoPids)
      ForceState.init).map (fun s => (s.force false, s.alive false,
        s.liveLock (ascii ".reprovm/lock"))) = some (ForcePc.removing, true, some (0, true)) := by
    decide +kernel
  obtain ⟨s, hs, hstate⟩ := Option.map_eq_some_iff.mp hforce
  rw [Prod.mk.injEq, Prod.mk.injEq] at hstate
  exact ⟨s, (Run.of_foldlM hs).imp fun _ _ _ h => forceNext_eq_some.mp h,
    not_kept_of_removing hstate.1 hstate.2.1 hstate.2.2⟩

end ReproVM
