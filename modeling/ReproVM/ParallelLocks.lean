/-
# Who holds the mutex

What each event of the parallel executor asks for and does, once (`parallelStep_iff`), and from
it what holds of `mu` in every run.  A worker in a critical section holds it and nobody else
does, so the sections exclude each other.  The other way round there is one exception: a worker
whose `execute_task` failed takes `mu` twice, and stands at the second lock holding it.
-/
import ReproVM.Lib.Trans
import ReproVM.Parallel

namespace ReproVM

open Lib (Run)

variable {a : ParallelArgs} {s s' : ParallelState} {e : ParallelEvent} {tr : List ParallelEvent}

/-! ## 1. What a step does -/

/-- What an event asks of the state before, and the state after. -/
def ParallelEvent.Spec (a : ParallelArgs) (s s' : ParallelState) : ParallelEvent → Prop
  | .spawn => ∃ i < a.workers, s.main = .spawn i ∧
      s' = { s.goto i .top with main := .spawn (i + 1) }
  | .mainLock =>
    s.main = .spawn a.workers ∧ s.mu = none ∧ s' = { s.setMu (some .main) with main := .broadcast }
  | .mainBroadcast =>
    s.main = .broadcast ∧ s' = { s.broadcast.setMu none with main := .join 0 }
  | .join => ∃ i < a.workers, s.main = .join i ∧ s.pc i = .exited ∧
      s' = { s with main := .join (i + 1) }
  | .lock w => s.mu = none ∧ ∃ pc, (s.pc w).locked = some pc ∧
      s' = (s.goto w pc).setMu (some (.worker w))
  | .wait w => s.pc w = .look ∧ s.ready = [] ∧ 0 < s.remaining ∧ s' = (s.goto w .waiting).setMu none
  | .exit w => s.pc w = .look ∧ s.ready = [] ∧ s.remaining = 0 ∧ s' = (s.goto w .exited).setMu none
  | .retry w => s.pc w = .look ∧ s.ready = [] ∧ s.remaining < 0 ∧ s' = (s.goto w .top).setMu none
  | .pop w t => ∃ rest, s.ready = t :: rest ∧ s.pc w = .look ∧
      s' = { ((s.goto w (.hash t)).setMu none).setStatus t .running with ready := rest }
  | .hash w t true => s.pc w = .hash t ∧ s' = s.goto w (.lookup t)
  | .hash w t false => s.pc w = .hash t ∧ s' = (s.goto w (.lockHashFailed t)).setStatus t .failed
  | .lookup w t true => s.pc w = .lookup t ∧ s' = (s.goto w (.lockDone t)).setStatus t .skipped
  | .lookup w t false => s.pc w = .lookup t ∧ s' = s.goto w (.command t)
  | .command w t true => s.pc w = .command t ∧ s' = s.goto w (.record t)
  | .command w t false => s.pc w = .command t ∧ s' = (s.goto w (.lockFailed t)).setStatus t .failed
  | .record w t true => s.pc w = .record t ∧ s' = (s.goto w (.lockDone t)).setStatus t .success
  | .record w t false => s.pc w = .record t ∧ s' = (s.goto w (.lockFailed t)).setStatus t .failed
  | .hashFailed w t => s.pc w = .hashFailed t ∧
      s' = { (s.goto w .top).broadcast.setMu none with
        failed := true, remaining := s.remaining - 1 }
  | .failed w t => s.pc w = .failed t ∧ s' = { s.goto w (.lockDone t) with failed := true }
  | .done w t => s.pc w = .done t ∧
      s' = (dependentsOf a.list t).foldl (releaseDependent a)
        { (s.goto w .top).broadcast.setMu none with remaining := s.remaining - 1 }
  | .spurious w => s.pc w = .waiting ∧ s' = s.goto w .woken

/-- **The steps.** -/
theorem parallelStep_iff : ParallelStep a s e s' ↔ e.Spec a s s' := by
  unfold ParallelStep
  cases e with
  | spawn =>
    rw [parallelStep, ParallelEvent.Spec]
    cases s.main <;> simp [@eq_comm _ s']
  | join =>
    rw [parallelStep, ParallelEvent.Spec]
    cases s.main <;> simp [and_assoc, @eq_comm _ s']
  | lock w =>
    rw [parallelStep, ParallelEvent.Spec]
    by_cases hmu : s.mu = none
    · simp [hmu, @eq_comm _ s']
    · simp [hmu]
  | pop w t =>
    rw [parallelStep, ParallelEvent.Spec]
    cases s.ready with
    | nil => simp
    | cons u rest =>
      simp only [Option.ite_none_right_eq_some, Option.some.injEq, List.cons.injEq]
      constructor
      · rintro ⟨⟨hpc, rfl⟩, hs⟩
        exact ⟨rest, ⟨rfl, rfl⟩, hpc, hs.symm⟩
      · rintro ⟨_, ⟨rfl, rfl⟩, hpc, hs⟩
        exact ⟨⟨hpc, rfl⟩, hs.symm⟩
  | hash w t ok => cases ok <;> simp [parallelStep, ParallelEvent.Spec, @eq_comm _ s']
  | lookup w t hit => cases hit <;> simp [parallelStep, ParallelEvent.Spec, @eq_comm _ s']
  | command w t ok => cases ok <;> simp [parallelStep, ParallelEvent.Spec, @eq_comm _ s']
  | record w t ok => cases ok <;> simp [parallelStep, ParallelEvent.Spec, @eq_comm _ s']
  | _ => simp [parallelStep, ParallelEvent.Spec, and_assoc, @eq_comm _ s']

/-! ## 2. What the functions on the context leave alone -/

section Frame

variable (s) (w : Nat) (pc : Pc) (mu : Option Thread) (t : TaskPtr) (st : TaskStatus)

@[simp] theorem goto_main : (s.goto w pc).main = s.main := rfl
@[simp] theorem goto_mu : (s.goto w pc).mu = s.mu := rfl
@[simp] theorem goto_ready : (s.goto w pc).ready = s.ready := rfl
@[simp] theorem goto_remaining : (s.goto w pc).remaining = s.remaining := rfl
@[simp] theorem goto_pendingDeps : (s.goto w pc).pendingDeps = s.pendingDeps := rfl
@[simp] theorem goto_status : (s.goto w pc).status = s.status := rfl
@[simp] theorem setMu_mu : (s.setMu mu).mu = mu := rfl
@[simp] theorem setMu_pc : (s.setMu mu).pc = s.pc := rfl
@[simp] theorem setMu_main : (s.setMu mu).main = s.main := rfl
@[simp] theorem setMu_ready : (s.setMu mu).ready = s.ready := rfl
@[simp] theorem setMu_remaining : (s.setMu mu).remaining = s.remaining := rfl
@[simp] theorem setMu_pendingDeps : (s.setMu mu).pendingDeps = s.pendingDeps := rfl
@[simp] theorem setMu_status : (s.setMu mu).status = s.status := rfl
@[simp] theorem setStatus_mu : (s.setStatus t st).mu = s.mu := rfl
@[simp] theorem setStatus_pc : (s.setStatus t st).pc = s.pc := rfl
@[simp] theorem setStatus_main : (s.setStatus t st).main = s.main := rfl
@[simp] theorem setStatus_ready : (s.setStatus t st).ready = s.ready := rfl
@[simp] theorem setStatus_remaining : (s.setStatus t st).remaining = s.remaining := rfl
@[simp] theorem setStatus_pendingDeps : (s.setStatus t st).pendingDeps = s.pendingDeps := rfl
@[simp] theorem broadcast_main : s.broadcast.main = s.main := rfl
@[simp] theorem broadcast_mu : s.broadcast.mu = s.mu := rfl
@[simp] theorem broadcast_ready : s.broadcast.ready = s.ready := rfl
@[simp] theorem broadcast_remaining : s.broadcast.remaining = s.remaining := rfl
@[simp] theorem broadcast_pendingDeps : s.broadcast.pendingDeps = s.pendingDeps := rfl
@[simp] theorem broadcast_status : s.broadcast.status = s.status := rfl

theorem goto_pc (v : Nat) : (s.goto w pc).pc v = if v = w then pc else s.pc v :=
  Function.update_apply ..

theorem setStatus_status (u : TaskPtr) :
    (s.setStatus t st).status u = if u = t then st else s.status u :=
  Function.update_apply ..

theorem broadcast_pc (v : Nat) :
    s.broadcast.pc v = if s.pc v = .waiting then .woken else s.pc v := rfl

end Frame

/-- The release of the dependents works on the counts and the queue. -/
theorem foldl_releaseDependent (xs : List TaskPtr) (s : ParallelState) :
    ∃ pendingDeps ready, xs.foldl (releaseDependent a) s =
      { s with pendingDeps := pendingDeps, ready := ready } := by
  induction xs generalizing s with
  | nil => exact ⟨_, _, rfl⟩
  | cons x xs ih =>
    obtain ⟨pd, rd, h⟩ := ih (releaseDependent a s x)
    refine ⟨pd, rd, ?_⟩
    rw [List.foldl_cons, h, releaseDependent]
    split
    · rfl
    · dsimp only
      split <;> rfl

/-- A completed task: the counts and the queue are what the release of its dependents made. -/
theorem ParallelEvent.Spec.done {w : Nat} {t : TaskPtr} (hs : (ParallelEvent.done w t).Spec a s s') :
    s.pc w = .done t ∧ ∃ pendingDeps ready, s' =
      { (s.goto w .top).broadcast.setMu none with
        remaining := s.remaining - 1, pendingDeps := pendingDeps, ready := ready } := by
  obtain ⟨hpc, rfl⟩ := hs
  exact ⟨hpc, foldl_releaseDependent ..⟩

/-- Where the worker that an event moves stands before it and after it. -/
inductive ParallelEvent.Moves : ParallelEvent → Nat → Pc → Pc → Prop
  | spawn (w p) : Moves .spawn w p .top
  | lock {w p q} (h : p.locked = some q) : Moves (.lock w) w p q
  | wait (w) : Moves (.wait w) w .look .waiting
  | exit (w) : Moves (.exit w) w .look .exited
  | retry (w) : Moves (.retry w) w .look .top
  | pop (w t) : Moves (.pop w t) w .look (.hash t)
  | hash (w t) : Moves (.hash w t true) w (.hash t) (.lookup t)
  | noHash (w t) : Moves (.hash w t false) w (.hash t) (.lockHashFailed t)
  | hit (w t) : Moves (.lookup w t true) w (.lookup t) (.lockDone t)
  | miss (w t) : Moves (.lookup w t false) w (.lookup t) (.command t)
  | command (w t) : Moves (.command w t true) w (.command t) (.record t)
  | noCommand (w t) : Moves (.command w t false) w (.command t) (.lockFailed t)
  | record (w t) : Moves (.record w t true) w (.record t) (.lockDone t)
  | noRecord (w t) : Moves (.record w t false) w (.record t) (.lockFailed t)
  | hashFailed (w t) : Moves (.hashFailed w t) w (.hashFailed t) .top
  | failed (w t) : Moves (.failed w t) w (.failed t) (.lockDone t)
  | done (w t) : Moves (.done w t) w (.done t) .top
  | spurious (w) : Moves (.spurious w) w .waiting .woken

theorem goto_moves {w : Nat} {pc : Pc} (h : e.Moves w (s.pc w) pc) (v : Nat) :
    (s.goto w pc).pc v = s.pc v ∨ e.Moves v (s.pc v) ((s.goto w pc).pc v) := by
  rw [goto_pc]
  split
  · subst v
    exact .inr h
  · exact .inl rfl

theorem goto_broadcast_pc (w v : Nat) : (s.goto w .top).broadcast.pc v = s.pc v ∨
    (s.pc v = .waiting ∧ (s.goto w .top).broadcast.pc v = .woken) ∨
      v = w ∧ (s.goto w .top).broadcast.pc v = .top := by
  rw [broadcast_pc, goto_pc]
  by_cases hv : v = w
  · simp [hv]
  · rw [if_neg hv]
    by_cases hw : s.pc v = .waiting
    · simp [hw]
    · simp [hw]

/-- **One worker moves**, and waiting ones are woken. -/
theorem pc_step (hs : ParallelStep a s e s') (v : Nat) : s'.pc v = s.pc v ∨
    (s.pc v = .waiting ∧ s'.pc v = .woken) ∨ e.Moves v (s.pc v) (s'.pc v) := by
  have hgoto : ∀ {w pc}, e.Moves w (s.pc w) pc → (s.goto w pc).pc v = s.pc v ∨
      (s.pc v = .waiting ∧ (s.goto w pc).pc v = .woken) ∨
        e.Moves v (s.pc v) ((s.goto w pc).pc v) :=
    fun h => (goto_moves h v).imp_right .inr
  have hwake : ∀ {w}, e.Moves w (s.pc w) .top → (s.goto w .top).broadcast.pc v = s.pc v ∨
      (s.pc v = .waiting ∧ (s.goto w .top).broadcast.pc v = .woken) ∨
        e.Moves v (s.pc v) ((s.goto w .top).broadcast.pc v) := by
    intro w h
    rcases goto_broadcast_pc (s := s) w v with h1 | h1 | ⟨rfl, h1⟩
    · exact .inl h1
    · exact .inr (.inl h1)
    · exact .inr (.inr (by rw [h1]; exact h))
  rw [parallelStep_iff] at hs
  cases e with
  | spawn =>
    obtain ⟨i, -, -, rfl⟩ := hs
    exact hgoto (.spawn i _)
  | mainLock =>
    obtain ⟨-, -, rfl⟩ := hs
    exact .inl rfl
  | mainBroadcast =>
    obtain ⟨-, rfl⟩ := hs
    change s.broadcast.pc v = s.pc v ∨ (s.pc v = .waiting ∧ s.broadcast.pc v = .woken) ∨ _
    rw [broadcast_pc]
    split
    · rename_i hw
      exact .inr (.inl ⟨hw, rfl⟩)
    · exact .inl rfl
  | join =>
    obtain ⟨i, -, -, -, rfl⟩ := hs
    exact .inl rfl
  | lock w =>
    obtain ⟨-, pc, hpc, rfl⟩ := hs
    exact hgoto (.lock hpc)
  | wait w =>
    obtain ⟨hpc, -, -, rfl⟩ := hs
    exact hgoto (hpc ▸ .wait w)
  | exit w =>
    obtain ⟨hpc, -, -, rfl⟩ := hs
    exact hgoto (hpc ▸ .exit w)
  | retry w =>
    obtain ⟨hpc, -, -, rfl⟩ := hs
    exact hgoto (hpc ▸ .retry w)
  | pop w t =>
    obtain ⟨rest, -, hpc, rfl⟩ := hs
    exact hgoto (hpc ▸ .pop w t)
  | hash w t ok =>
    cases ok <;> obtain ⟨hpc, rfl⟩ := hs
    · exact hgoto (hpc ▸ .noHash w t)
    · exact hgoto (hpc ▸ .hash w t)
  | lookup w t hit =>
    cases hit <;> obtain ⟨hpc, rfl⟩ := hs
    · exact hgoto (hpc ▸ .miss w t)
    · exact hgoto (hpc ▸ .hit w t)
  | command w t ok =>
    cases ok <;> obtain ⟨hpc, rfl⟩ := hs
    · exact hgoto (hpc ▸ .noCommand w t)
    · exact hgoto (hpc ▸ .command w t)
  | record w t ok =>
    cases ok <;> obtain ⟨hpc, rfl⟩ := hs
    · exact hgoto (hpc ▸ .noRecord w t)
    · exact hgoto (hpc ▸ .record w t)
  | hashFailed w t =>
    obtain ⟨hpc, rfl⟩ := hs
    exact hwake (hpc ▸ .hashFailed w t)
  | failed w t =>
    obtain ⟨hpc, rfl⟩ := hs
    exact hgoto (hpc ▸ .failed w t)
  | done w t =>
    obtain ⟨hpc, pd, rd, rfl⟩ := ParallelEvent.Spec.done hs
    exact hwake (hpc ▸ .done w t)
  | spurious w =>
    obtain ⟨hpc, rfl⟩ := hs
    exact hgoto (hpc ▸ .spurious w)

/-! ## 3. The lock invariant -/

/-- Between a lock and its unlock. -/
def Pc.critical : Pc → Prop
  | .look | .hashFailed _ | .failed _ | .done _ => True
  | _ => False

/-- How many workers were created. -/
def MainPc.created (a : ParallelArgs) : MainPc → Nat
  | .spawn i => i
  | _ => a.workers

/-- `mu` and the threads. -/
structure LockInv (a : ParallelArgs) (tr : List ParallelEvent) (s : ParallelState) : Prop where
  owner : ∀ w, (s.pc w).critical → s.mu = some (.worker w)
  owned : ∀ w, s.mu = some (.worker w) →
    (s.pc w).critical ∨ ∃ t, s.pc w = .lockDone t ∧ .failed w t ∈ tr
  main_mu : s.mu = some .main ↔ s.main = .broadcast
  unborn : ∀ w, s.pc w = .unborn ↔ s.main.created a ≤ w
  created_le : s.main.created a ≤ a.workers

theorem lockInv_init : LockInv a [] (parallelInit a) where
  owner w h := h.elim
  owned w h := by simp [parallelInit] at h
  main_mu := by simp [parallelInit]
  unborn w := by simp [parallelInit, MainPc.created]
  created_le := Nat.zero_le _

theorem Pc.critical_of_locked {p q : Pc} (h : p.locked = some q) : q.critical := by
  cases p <;> simp_all [Pc.locked] <;> subst h <;> trivial

theorem Pc.critical.ne_unborn {p : Pc} (h : p.critical) : p ≠ .unborn := by
  rintro rfl
  exact h

/-- Worker `w` acts: the others keep their place, or are woken. -/
theorem LockInv.act (h : LockInv a tr s) {w : Nat} (hmain : s'.main = s.main)
    (hpc : ∀ v, v ≠ w → s'.pc v = s.pc v ∨ s.pc v = .waiting ∧ s'.pc v = .woken)
    (hmu : ∀ th, th ≠ .worker w → (s'.mu = some th ↔ s.mu = some th))
    (hb : s.pc w ≠ .unborn) (hb' : s'.pc w ≠ .unborn)
    (howner : (s'.pc w).critical → s'.mu = some (.worker w))
    (howned : s'.mu = some (.worker w) →
      (s'.pc w).critical ∨ ∃ t, s'.pc w = .lockDone t ∧ .failed w t ∈ tr ++ [e]) :
    LockInv a (tr ++ [e]) s' where
  owner v hv := by
    by_cases hvw : v = w
    · rw [hvw] at hv ⊢
      exact howner hv
    · rw [hmu _ (by simpa using hvw)]
      rcases hpc v hvw with hv' | ⟨-, hv'⟩
      · exact h.owner v (hv' ▸ hv)
      · rw [hv'] at hv
        exact hv.elim
  owned v hv := by
    by_cases hvw : v = w
    · rw [hvw] at hv ⊢
      exact howned hv
    · have hold := h.owned v ((hmu _ (by simpa using hvw)).mp hv)
      rcases hpc v hvw with hv' | ⟨hv', -⟩
      · rw [hv']
        rcases hold with hc | ⟨t, ht, hf⟩
        · exact .inl hc
        · exact .inr ⟨t, ht, List.mem_append_left _ hf⟩
      · rw [hv'] at hold
        rcases hold with hc | ⟨t, ht, -⟩
        · exact hc.elim
        · exact absurd ht (by simp)
  main_mu := by rw [hmu _ (by simp), hmain, h.main_mu]
  unborn v := by
    rw [hmain, ← h.unborn v]
    by_cases hvw : v = w
    · subst hvw
      simp [hb, hb']
    · rcases hpc v hvw with hv' | ⟨hv, hv'⟩
      · rw [hv']
      · simp [hv, hv']
  created_le := hmain ▸ h.created_le

/-- Between two points off the mutex. -/
theorem LockInv.local (h : LockInv a tr s) {w : Nat} {pc : Pc} (st : TaskPtr → TaskStatus)
    (hb : s.pc w ≠ .unborn) (hb' : pc ≠ .unborn) (hc : ¬ (s.pc w).critical) (hc' : ¬ pc.critical)
    (hd : ∀ t, s.pc w ≠ .lockDone t) : LockInv a (tr ++ [e]) { s.goto w pc with status := st } := by
  have hmu : s.mu ≠ some (.worker w) := by
    intro hmu
    rcases h.owned w hmu with hcr | ⟨t, ht, -⟩
    · exact hc hcr
    · exact hd t ht
  refine h.act (w := w) rfl (fun v hv => .inl ?_) (fun _ _ => Iff.rfl) hb ?_ ?_ ?_
  · rw [goto_pc, if_neg hv]
  · rwa [goto_pc, if_pos rfl]
  · rw [goto_pc, if_pos rfl]
    exact fun h => absurd h hc'
  · exact fun h => absurd h hmu

/-- An unlock. -/
theorem LockInv.leave (h : LockInv a tr s) {w : Nat} (hc : (s.pc w).critical)
    (hmain : s'.main = s.main)
    (hpc : ∀ v, v ≠ w → s'.pc v = s.pc v ∨ s.pc v = .waiting ∧ s'.pc v = .woken)
    (hmu : s'.mu = none) (hc' : ¬ (s'.pc w).critical) (hb' : s'.pc w ≠ .unborn) :
    LockInv a (tr ++ [e]) s' := by
  have hold := h.owner w hc
  refine h.act hmain hpc (fun th hth => ?_) hc.ne_unborn hb' (fun h => absurd h hc') ?_
  · rw [hmu, hold]
    simp [hth.symm]
  · simp [hmu]

/-- An unlock after a broadcast. -/
theorem LockInv.leave_broadcast (h : LockInv a tr s) {w : Nat} (hc : (s.pc w).critical)
    (hmain : s'.main = s.main) (hpc : s'.pc = (s.goto w .top).broadcast.pc) (hmu : s'.mu = none) :
    LockInv a (tr ++ [e]) s' := by
  refine h.leave hc hmain (fun v hv => ?_) hmu ?_ ?_
  · rw [hpc, broadcast_pc, goto_pc, if_neg hv]
    split
    · exact .inr ⟨‹_›, rfl⟩
    · exact .inl rfl
  · simp [hpc, broadcast_pc, goto_pc, Pc.critical]
  · simp [hpc, broadcast_pc, goto_pc]

theorem LockInv.spawn (h : LockInv a tr s) {i : Nat} (hi : i < a.workers) (hm : s.main = .spawn i) :
    LockInv a (tr ++ [e]) { s.goto i .top with main := .spawn (i + 1) } := by
  have hcr : s.main.created a = i := by rw [hm, MainPc.created]
  have hub : s.pc i = .unborn := (h.unborn i).mpr (Nat.le_of_eq hcr)
  refine ⟨fun w hw => ?_, fun w hw => ?_, ?_, fun w => ?_, hi⟩
  · rw [goto_pc] at hw
    split at hw
    · exact hw.elim
    · exact h.owner w hw
  · have hold := h.owned w hw
    have hwi : w ≠ i := by
      rintro rfl
      simp [hub, Pc.critical] at hold
    rw [goto_pc, if_neg hwi]
    rcases hold with hc | ⟨t, ht, hf⟩
    · exact .inl hc
    · exact .inr ⟨t, ht, List.mem_append_left _ hf⟩
  · have := h.main_mu
    rw [hm] at this
    simpa using this
  · have := h.unborn w
    rw [hcr] at this
    simp only [goto_pc, MainPc.created]
    split
    · subst w
      simp
    · rw [this]
      omega

/-- The main thread acts, with or without a broadcast. -/
theorem LockInv.main_step (h : LockInv a tr s) (hcr : s'.main.created a = s.main.created a)
    (hw : ∀ w, s'.mu = some (.worker w) ↔ s.mu = some (.worker w))
    (hm : s'.mu = some .main ↔ s'.main = .broadcast)
    (hpc : ∀ v, s'.pc v = s.pc v ∨ s.pc v = .waiting ∧ s'.pc v = .woken) :
    LockInv a (tr ++ [e]) s' := by
  refine ⟨fun v hv => ?_, fun v hv => ?_, hm, fun v => ?_, hcr ▸ h.created_le⟩
  · rw [hw]
    rcases hpc v with hv' | ⟨-, hv'⟩
    · exact h.owner v (hv' ▸ hv)
    · rw [hv'] at hv
      exact hv.elim
  · have hold := h.owned v ((hw v).mp hv)
    rcases hpc v with hv' | ⟨hv', -⟩
    · rw [hv']
      rcases hold with hc | ⟨t, ht, hf⟩
      · exact .inl hc
      · exact .inr ⟨t, ht, List.mem_append_left _ hf⟩
    · simp [hv', Pc.critical] at hold
  · rw [hcr, ← h.unborn v]
    rcases hpc v with hv' | ⟨hv, hv'⟩
    · rw [hv']
    · simp [hv, hv']

/-- **Every step keeps the lock invariant.** -/
theorem LockInv.step (h : LockInv a tr s) (hs : ParallelStep a s e s') :
    LockInv a (tr ++ [e]) s' := by
  rw [parallelStep_iff] at hs
  cases e with
  | spawn =>
    obtain ⟨i, hi, hm, rfl⟩ := hs
    exact h.spawn hi hm
  | mainLock =>
    obtain ⟨hm, hmu, rfl⟩ := hs
    refine h.main_step ?_ ?_ ?_ fun v => .inl rfl
    · simp [hm, MainPc.created]
    · simp [hmu]
    · simp
  | mainBroadcast =>
    obtain ⟨hm, rfl⟩ := hs
    have hmu := h.main_mu.mpr hm
    refine h.main_step ?_ ?_ ?_ fun v => ?_
    · simp [hm, MainPc.created]
    · simp [hmu]
    · simp
    · rw [setMu_pc, broadcast_pc]
      split
      · exact .inr ⟨‹_›, rfl⟩
      · exact .inl rfl
  | join =>
    obtain ⟨i, -, hm, -, rfl⟩ := hs
    have hmu := h.main_mu
    refine h.main_step ?_ ?_ ?_ fun v => .inl rfl
    · simp [hm, MainPc.created]
    · simp
    · simpa [hm] using hmu
  | lock w =>
    obtain ⟨hmu, pc, hpc, rfl⟩ := hs
    have hc := Pc.critical_of_locked hpc
    refine h.act (w := w) rfl (fun v hv => .inl ?_) (fun th hth => ?_) ?_ ?_ ?_ ?_
    · rw [setMu_pc, goto_pc, if_neg hv]
    · simp [hmu, hth.symm]
    · intro hu
      rw [hu] at hpc
      exact absurd hpc (by simp [Pc.locked])
    · rw [setMu_pc, goto_pc, if_pos rfl]
      exact hc.ne_unborn
    · exact fun _ => rfl
    · rw [setMu_pc, goto_pc, if_pos rfl]
      exact fun _ => .inl hc
  | wait w =>
    obtain ⟨hpc, -, -, rfl⟩ := hs
    exact h.leave (by rw [hpc]; trivial) rfl (fun v hv => .inl (by simp [goto_pc, hv])) rfl
      (by simp [goto_pc, Pc.critical]) (by simp [goto_pc])
  | exit w =>
    obtain ⟨hpc, -, -, rfl⟩ := hs
    exact h.leave (by rw [hpc]; trivial) rfl (fun v hv => .inl (by simp [goto_pc, hv])) rfl
      (by simp [goto_pc, Pc.critical]) (by simp [goto_pc])
  | retry w =>
    obtain ⟨hpc, -, -, rfl⟩ := hs
    exact h.leave (by rw [hpc]; trivial) rfl (fun v hv => .inl (by simp [goto_pc, hv])) rfl
      (by simp [goto_pc, Pc.critical]) (by simp [goto_pc])
  | pop w t =>
    obtain ⟨rest, -, hpc, rfl⟩ := hs
    exact h.leave (by rw [hpc]; trivial) rfl (fun v hv => .inl (by simp [goto_pc, hv])) rfl
      (by simp [goto_pc, Pc.critical]) (by simp [goto_pc])
  | hash w t ok =>
    cases ok <;> obtain ⟨hpc, rfl⟩ := hs <;>
      exact h.local _ (by simp [hpc]) (by simp) (by simp [hpc, Pc.critical]) (by simp [Pc.critical])
        (by simp [hpc])
  | lookup w t hit =>
    cases hit <;> obtain ⟨hpc, rfl⟩ := hs <;>
      exact h.local _ (by simp [hpc]) (by simp) (by simp [hpc, Pc.critical]) (by simp [Pc.critical])
        (by simp [hpc])
  | command w t ok =>
    cases ok <;> obtain ⟨hpc, rfl⟩ := hs <;>
      exact h.local _ (by simp [hpc]) (by simp) (by simp [hpc, Pc.critical]) (by simp [Pc.critical])
        (by simp [hpc])
  | record w t ok =>
    cases ok <;> obtain ⟨hpc, rfl⟩ := hs <;>
      exact h.local _ (by simp [hpc]) (by simp) (by simp [hpc, Pc.critical]) (by simp [Pc.critical])
        (by simp [hpc])
  | hashFailed w t =>
    obtain ⟨hpc, rfl⟩ := hs
    exact h.leave_broadcast (w := w) (by rw [hpc]; trivial) rfl rfl rfl
  | failed w t =>
    obtain ⟨hpc, rfl⟩ := hs
    have hmu := h.owner w (by rw [hpc]; trivial)
    refine h.act (w := w) rfl (fun v hv => .inl (by simp [goto_pc, hv])) (fun _ _ => Iff.rfl)
      (by simp [hpc]) (by simp [goto_pc]) (fun _ => hmu) (fun _ => .inr ⟨t, ?_, by simp⟩)
    simp [goto_pc]
  | done w t =>
    obtain ⟨hpc, pd, rd, rfl⟩ := ParallelEvent.Spec.done hs
    exact h.leave_broadcast (w := w) (by rw [hpc]; trivial) rfl rfl rfl
  | spurious w =>
    obtain ⟨hpc, rfl⟩ := hs
    exact h.local _ (by simp [hpc]) (by simp) (by simp [hpc, Pc.critical]) (by simp [Pc.critical])
      (by simp [hpc])

theorem lockInv_run (h : Run (ParallelStep a) (parallelInit a) tr s) : LockInv a tr s :=
  Run.inv lockInv_init (fun _ _ _ _ _ hi hs => hi.step hs) h

end ReproVM
