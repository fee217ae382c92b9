/-
# Statement by statement, a worker does what its larger steps do

A statement of `Threads` is followed by a run of `Parallel`: the statements of a critical section by
nothing, and its unlock by the step for the whole section.  In between, what `mu` protects is what
the section has made so far of what `Parallel` has (`Threads.expected`), and nobody else is in a
section.  A broadcast before the unlock is followed by wakeups without a signal.

Along with it go the cells of the queue, which hold what `Parallel` has as a list, and `print_mu`,
which is held where a worker prints.
-/
import ReproVM.ParallelComplete
import ReproVM.ParallelEnds
import ReproVM.Threads

namespace ReproVM

open Lib (Run LinkedQueue)

variable {a : ParallelArgs} {s s' : Threads} {c c' : ParallelState} {tr : List ParallelEvent}
  {w : Nat} {q : WorkerPc} {d : Shared} {t dep : TaskPtr}

/-! ## 1. What `mu` protects -/

theorem releaseDependent_shared (c : ParallelState) (dep : TaskPtr) :
    (releaseDependent a c dep).shared = c.shared.release a dep := by
  rw [releaseDependent, Shared.release, ← slot]
  cases slot a dep with
  | none => rfl
  | some idx =>
    dsimp only
    split <;> rename_i h
    · exact (if_pos h).symm
    · exact (if_neg h).symm

theorem foldl_releaseDependent_shared (xs : List TaskPtr) (c : ParallelState) :
    (xs.foldl (releaseDependent a) c).shared = xs.foldl (Shared.release a) c.shared := by
  induction xs generalizing c with
  | nil => rfl
  | cons x xs ih => rw [List.foldl_cons, List.foldl_cons, ih, releaseDependent_shared]

namespace Shared

theorem releaseFirst_succ {i : Nat} (h : (dependentsOf a.list t)[i]? = some dep) (d : Shared) :
    d.releaseFirst a t (i + 1) = (d.releaseFirst a t i).release a dep := by
  rw [releaseFirst, List.take_add_one, h, Option.toList_some, List.foldl_append]
  rfl

theorem releaseFirst_of_none {i : Nat} (h : (dependentsOf a.list t)[i]? = none) (d : Shared) :
    d.releaseFirst a t i = d.releaseFirst a t (dependentsOf a.list t).length := by
  rw [releaseFirst, releaseFirst, List.take_of_length_le (List.getElem?_eq_none_iff.mp h),
    List.take_length]

theorem release_of_none (h : slot a dep = none) (d : Shared) : d.release a dep = d := by
  rw [release, h]

theorem lower_of_some {idx : Nat} (h : slot a dep = some idx) (d : Shared) : d.lower a dep =
    { d with pendingDeps := Function.update d.pendingDeps idx (d.pendingDeps idx - 1) } := by
  rw [lower, h]

theorem lower_ready (d : Shared) (dep : TaskPtr) : (d.lower a dep).ready = d.ready := by
  rw [lower]
  cases slot a dep <;> rfl

theorem release_of_due (h : d.Due a dep) :
    d.release a dep = { d.lower a dep with ready := d.ready ++ [dep] } := by
  obtain ⟨idx, hidx, h0⟩ := h
  rw [release, lower_of_some hidx, hidx]
  dsimp only
  rw [if_pos (by rwa [Function.update_self])]

theorem release_of_not_due {idx : Nat} (hidx : slot a dep = some idx)
    (h : d.pendingDeps idx - 1 ≠ 0) : d.release a dep = d.lower a dep := by
  rw [release, lower_of_some hidx, hidx]
  dsimp only
  rw [if_neg (by rwa [Function.update_self])]

end Shared

/-! ## 2. Places -/

theorem ahead_plain (h : ¬ q.abs.critical) : q.ahead a d = d := by
  cases q <;> first | rfl | exact absurd trivial h

theorem guard_plain (h : ¬ q.abs.critical) : q.Guard a s c := by
  cases q <;> first | trivial | exact absurd trivial h

theorem not_printing_plain (h : ¬ q.abs.critical) (t : TaskPtr) : q ≠ .printing t := by
  rintro rfl
  exact h trivial

theorem abs_eq_waiting : q.abs = .waiting ↔ q = .waiting := by
  cases q <;> simp [WorkerPc.abs]

theorem abs_eq_unborn : q.abs = .unborn ↔ q = .unborn := by
  cases q <;> simp [WorkerPc.abs]

theorem abs_eq_exited : q.abs = .exited ↔ q = .exited := by
  cases q <;> simp [WorkerPc.abs]

theorem Threads.goto_pc (s : Threads) (w : Nat) (q : WorkerPc) (v : Nat) :
    (s.goto w q).pc v = if v = w then q else s.pc v :=
  Function.update_apply ..

theorem Threads.broadcast_pc (s : Threads) (v : Nat) :
    s.broadcast.pc v = if s.pc v = .waiting then .woken else s.pc v := rfl

/-- The same place in both. -/
theorem goto_abs (h : ∀ v, c.pc v = (s.pc v).abs) (w : Nat) (q : WorkerPc) (v : Nat) :
    (c.goto w q.abs).pc v = ((s.goto w q).pc v).abs := by
  rw [ReproVM.goto_pc, Threads.goto_pc]
  split
  · rfl
  · exact h v

/-- A place that `Parallel` does not tell from the one before. -/
theorem stay_abs (h : ∀ v, c.pc v = (s.pc v).abs) (hq : q.abs = (s.pc w).abs) (v : Nat) :
    c.pc v = ((s.goto w q).pc v).abs := by
  rw [Threads.goto_pc]
  split
  · subst v
    rw [h, hq]
  · exact h v

theorem wake_abs (h : ∀ v, c.pc v = (s.pc v).abs) (v : Nat) :
    c.broadcast.pc v = (s.broadcast.pc v).abs := by
  rw [ReproVM.broadcast_pc, Threads.broadcast_pc, h]
  by_cases hv : s.pc v = .waiting
  · rw [if_pos hv, hv]
    rfl
  · rw [if_neg hv, if_neg fun h => hv (abs_eq_waiting.mp h)]

/-- With nobody waiting a broadcast wakes nobody. -/
theorem goto_wake_abs (h : ∀ v, c.pc v = (s.pc v).abs) (hw : ∀ v, s.pc v ≠ .waiting)
    (hq : q ≠ .waiting) (w v : Nat) :
    (c.goto w q.abs).broadcast.pc v = ((s.goto w q).pc v).abs := by
  have hpc := goto_abs h w q v
  rw [ReproVM.broadcast_pc, hpc, if_neg]
  intro hv
  have := abs_eq_waiting.mp hv
  rw [Threads.goto_pc] at this
  split at this
  · exact hq this
  · exact hw v this

/-- **A broadcast** without a signal. -/
theorem run_broadcast (h : ∀ v, c.pc v = .waiting → v < a.workers) :
    ∃ l, Run (ParallelStep a) c l c.broadcast := by
  have hrun : ∀ n, ∃ l, Run (ParallelStep a) c l
      { c with pc := fun v => if c.pc v = .waiting ∧ v < n then .woken else c.pc v } := by
    intro n
    induction n with
    | zero => exact ⟨[], by simpa using .refl⟩
    | succ n ih =>
      obtain ⟨l, hl⟩ := ih
      by_cases hn : c.pc n = .waiting
      · have hs : ParallelStep a
            { c with pc := fun v => if c.pc v = .waiting ∧ v < n then .woken else c.pc v }
            (.spurious n)
            { c with pc := fun v => if c.pc v = .waiting ∧ v < n + 1 then .woken else c.pc v } := by
          refine parallelStep_iff.mpr ⟨by simpa using hn, ?_⟩
          simp only [ParallelState.goto, ParallelState.mk.injEq, and_true]
          funext v
          rw [Function.update_apply]
          by_cases hv : v = n
          · simp [hv, hn]
          · have : v < n + 1 ↔ v < n := by omega
            simp [hv, this]
        exact ⟨_, hl.snoc hs⟩
      · refine ⟨l, ?_⟩
        convert hl using 3 with v
        by_cases hv : v = n
        · simp [hv, hn]
        · have : v < n + 1 ↔ v < n := by omega
          simp [this]
  obtain ⟨l, hl⟩ := hrun a.workers
  refine ⟨l, ?_⟩
  convert hl using 1
  simp only [ParallelState.broadcast, ParallelState.mk.injEq, and_true]
  funext v
  by_cases hv : c.pc v = .waiting
  · simp [hv, h v hv]
  · simp [hv]

/-! ## 3. Two states that agree -/

/-- The two states agree: what `mu` protects up to what its holder has not unlocked, the statuses
up to those that a worker is about to set. -/
structure InStep (a : ParallelArgs) (s : Threads) (c : ParallelState) : Prop where
  pc : ∀ v, c.pc v = (s.pc v).abs
  main : c.main = s.main.abs a
  mu : c.mu = s.mu
  status : ∀ t, (∀ v, s.pc v ≠ .start t) → s.status t = c.status t
  holds : s.Holds (s.expected a c)
  guard : ∀ v, (s.pc v).Guard a s c
  woken : s.main = .unlock → ∀ v, s.pc v ≠ .waiting
  print : ∀ th, s.printMu = some th ↔ ∃ v t, th = .worker v ∧ s.pc v = .printing t

/-- What the others see in the context. -/
theorem Threads.Holds.congr (h : s.Holds d) (hp : s'.pendingDeps = s.pendingDeps)
    (hr : s'.remaining = s.remaining) (hf : s'.failed = s.failed) (hq : s'.queue = s.queue) :
    s'.Holds d :=
  ⟨hp.trans h.pendingDeps, hr.trans h.remaining, hf.trans h.failed, by
    rw [hq]
    exact h.queue⟩

theorem InStep.init (hc : c = parallelInit a) (hpc : ∀ v, s.pc v = .unborn) (hm : s.main = .spawn 0)
    (hmu : s.mu = none) (hp : s.printMu = none) (hst : ∀ t, s.status t = .pending)
    (h : s.Holds c.shared) : InStep a s c where
  pc v := by
    rw [hpc, hc]
    rfl
  main := by
    rw [hm, hc]
    rfl
  mu := by
    rw [hmu, hc]
    rfl
  status t _ := by
    rw [hst, hc]
    rfl
  holds := by
    rw [Threads.expected, hmu]
    exact h
  guard v := by
    rw [hpc]
    trivial
  woken h := by
    rw [hm] at h
    cases h
  print th := by simp [hp, hpc]

namespace InStep

theorem guard_congr {c' : ParallelState} (h : q.Guard a s c) (hsh : c'.shared = c.shared)
    (hw : (∀ v, s.pc v ≠ .waiting) → ∀ v, s'.pc v ≠ .waiting) : q.Guard a s' c' := by
  have hrd : c'.ready = c.ready := congrArg Shared.ready hsh
  have hrm : c'.remaining = c.remaining := congrArg Shared.remaining hsh
  cases q with
  | hashUnlock | unlockDone => exact hw h
  | unlock t =>
    cases t with
    | none => exact ⟨hrd.trans h.1, hrm ▸ h.2⟩
    | some t => exact h.imp fun _ => hrd.trans
  | leaving => exact ⟨hrd.trans h.1, hrm.trans h.2⟩
  | push t i =>
    unfold WorkerPc.Guard at h ⊢
    rwa [hsh]
  | _ => trivial

/-- **A step outside the sections**: a worker moves, `Parallel` moves it too or not at all. -/
theorem move (h : InStep a s c) (hpc : ∀ v, c'.pc v = ((s.goto w q).pc v).abs)
    (hpc' : s'.pc = (s.goto w q).pc) (hmain : c'.main = s'.main.abs a)
    (hmain' : s'.main = .unlock → s.main = .unlock) (hmu : c'.mu = c.mu) (hmu' : s'.mu = s.mu)
    (hsh : c'.shared = c.shared) (hsh' : ∀ d, s.Holds d → s'.Holds d)
    (hp : s'.printMu = s.printMu)
    (hst : ∀ t, (∀ v, s'.pc v ≠ .start t) → s'.status t = c'.status t)
    (hout : ¬ (s.pc w).abs.critical) (hout' : ¬ q.abs.critical) (hq : q ≠ .waiting) :
    InStep a s' c' where
  pc v := by rw [hpc', hpc]
  main := hmain
  mu := by rw [hmu, hmu', h.mu]
  status := hst
  holds := by
    have he : s'.expected a c' = s.expected a c := by
      rw [Threads.expected, Threads.expected, hmu']
      rcases hm : s.mu with _ | _ | v <;> dsimp only
      · exact hsh
      · exact hsh
      · rw [hpc', Threads.goto_pc, hsh]
        split
        · rename_i hv
          rw [hv, ahead_plain hout, ahead_plain hout']
        · rfl
    rw [he]
    exact hsh' _ h.holds
  guard v := by
    have hw : (∀ v, s.pc v ≠ .waiting) → ∀ v, s'.pc v ≠ .waiting := by
      intro hw v
      rw [hpc', Threads.goto_pc]
      split
      · exact hq
      · exact hw v
    rw [hpc', Threads.goto_pc]
    split
    · exact guard_plain hout'
    · exact guard_congr (h.guard v) hsh hw
  woken hu v := by
    rw [hpc', Threads.goto_pc]
    split
    · exact hq
    · exact h.woken (hmain' hu) v
  print th := by
    rw [hp, h.print th, hpc']
    refine exists_congr fun v => exists_congr fun t => and_congr_right fun _ => ?_
    rw [Threads.goto_pc]
    split
    · rename_i hv
      rw [hv]
      exact iff_of_false (not_printing_plain hout t) (not_printing_plain hout' t)
    · rfl

/-- **A lock.** -/
theorem lock (h : InStep a s c) (hmu : s.mu = none) (hq : (s.pc w).abs.locked = some q.abs)
    (hplain : ∀ d, q.ahead a d = d) (hg : ∀ s c, q.Guard a s c) (hp : ∀ t, q ≠ .printing t)
    (hst : ∀ t, s.pc w ≠ .start t) (hw : q ≠ .waiting)
    (hp' : ∀ t, s.pc w ≠ .printing t) :
    ParallelStep a c (.lock w) ((c.goto w q.abs).setMu (some (.worker w))) ∧
      InStep a { s.goto w q with mu := some (.worker w) }
        ((c.goto w q.abs).setMu (some (.worker w))) := by
  refine ⟨parallelStep_iff.mpr ⟨h.mu.trans hmu, q.abs, ?_, rfl⟩, goto_abs h.pc w q, h.main, rfl,
    fun t ht => ?_, ?_, fun v => ?_, fun hu v => ?_, fun th => ?_⟩
  · rw [h.pc, hq]
  · refine h.status t fun v hv => ht v ?_
    change (s.goto w q).pc v = _
    rw [Threads.goto_pc, if_neg, hv]
    rintro rfl
    exact hst t hv
  · have he := h.holds
    rw [Threads.expected, hmu] at he
    have : (s.goto w q).pc w = q := by rw [Threads.goto_pc, if_pos rfl]
    rw [Threads.expected]
    dsimp only
    rw [this, hplain]
    exact he.congr rfl rfl rfl rfl
  · change ((s.goto w q).pc v).Guard a _ _
    rw [Threads.goto_pc]
    split
    · exact hg ..
    · refine guard_congr (h.guard v) rfl fun hw' v => ?_
      change (s.goto w q).pc v ≠ _
      rw [Threads.goto_pc]
      split
      · exact hw
      · exact hw' v
  · change (s.goto w q).pc v ≠ _
    rw [Threads.goto_pc]
    split
    · exact hw
    · exact h.woken hu v
  · rw [show ({ s.goto w q with mu := some (.worker w) } : Threads).printMu = s.printMu from rfl,
      h.print th]
    refine exists_congr fun v => exists_congr fun t => and_congr_right fun _ => ?_
    change _ ↔ (s.goto w q).pc v = _
    rw [Threads.goto_pc]
    split
    · rename_i hv
      rw [hv]
      exact iff_of_false (hp' t) (hp t)
    · rfl

/-- Nobody else is in a section. -/
theorem alone (h : InStep a s c) (hl : LockInv a tr c) (hin : (s.pc w).abs.critical) :
    s.mu = some (.worker w) ∧ ∀ v, v ≠ w → ¬ (s.pc v).abs.critical := by
  rw [← h.pc] at hin
  have hmu := hl.owner w hin
  refine ⟨h.mu.symm.trans hmu, fun v hv hc => hv ?_⟩
  rw [← h.pc] at hc
  have := hmu.symm.trans (hl.owner v hc)
  simpa using this.symm

theorem holds_of_critical (h : InStep a s c) (hl : LockInv a tr c)
    (hin : (s.pc w).abs.critical) : s.Holds ((s.pc w).ahead a c.shared) := by
  have he := h.holds
  rw [Threads.expected, (h.alone hl hin).1] at he
  exact he

/-- **A step in a section**, which `Parallel` does not see. -/
theorem inside (h : InStep a s c) (hl : LockInv a tr c) (hin : (s.pc w).abs.critical)
    (hq : q.abs = (s.pc w).abs) (hpc : s'.pc = (s.goto w q).pc) (hmain : s'.main = s.main)
    (hmu : s'.mu = s.mu) (hst : s'.status = s.status) (hh : s'.Holds (q.ahead a c.shared))
    (hg : q.Guard a s' c)
    (hp : ∀ th, s'.printMu = some th ↔ th = .worker w ∧ ∃ t, q = .printing t) :
    InStep a s' c := by
  have hself : s'.pc w = q := by rw [hpc, Threads.goto_pc, if_pos rfl]
  have hother : ∀ v, v ≠ w → s'.pc v = s.pc v := fun v hv => by
    rw [hpc, Threads.goto_pc, if_neg hv]
  have hcrit : q.abs.critical := hq ▸ hin
  obtain ⟨hw, halone⟩ := h.alone hl hin
  refine ⟨fun v => ?_, ?_, ?_, fun t ht => ?_, ?_, fun v => ?_, fun hu v => ?_, fun th => ?_⟩
  · rw [hpc]
    exact stay_abs h.pc hq v
  · rw [hmain, h.main]
  · rw [hmu, h.mu]
  · rw [hst]
    refine h.status t fun v hv => ?_
    by_cases hvw : v = w
    · subst hvw
      rw [hv] at hin
      exact hin
    · exact ht v ((hother v hvw).trans hv)
  · rw [Threads.expected, hmu, hw]
    dsimp only
    rw [hself]
    exact hh
  · by_cases hvw : v = w
    · subst hvw
      rw [hself]
      exact hg
    · rw [hother v hvw]
      exact guard_plain (halone v hvw)
  · have hb : c.main = .broadcast := by
      rw [h.main, ← hmain, hu]
      rfl
    have := hl.main_mu.mpr hb
    rw [h.mu, hw] at this
    cases this
  · rw [hp]
    constructor
    · rintro ⟨rfl, t, rfl⟩
      exact ⟨w, t, rfl, hself⟩
    · rintro ⟨v, t, rfl, hv⟩
      by_cases hvw : v = w
      · subst hvw
        exact ⟨rfl, t, hself.symm.trans hv⟩
      · rw [hother v hvw] at hv
        exact absurd hv (not_printing_plain (halone v hvw) t)

/-- **A broadcast**, which `Parallel` follows with wakeups. -/
theorem broadcast (h : InStep a s c) : InStep a s.broadcast c.broadcast := by
  have hkeep : ∀ {v p}, p ≠ .waiting → p ≠ .woken → (s.broadcast.pc v = p ↔ s.pc v = p) := by
    intro v p h1 h2
    rw [Threads.broadcast_pc]
    split
    · rename_i hv
      rw [hv]
      exact iff_of_false h2.symm h1.symm
    · rfl
  refine ⟨wake_abs h.pc, h.main, h.mu, fun t ht => ?_, ?_, fun v => ?_, fun _ v hv => ?_,
    fun th => ?_⟩
  · exact h.status t fun v hv => ht v ((hkeep (by simp) (by simp)).mpr hv)
  · have he : s.broadcast.expected a c.broadcast = s.expected a c := by
      rw [Threads.expected, Threads.expected, show s.broadcast.mu = s.mu from rfl,
        show c.broadcast.shared = c.shared from rfl]
      rcases s.mu with _ | _ | v <;> dsimp only
      rw [Threads.broadcast_pc]
      split
      · rename_i hv
        rw [hv]
        rfl
      · rfl
    rw [he]
    exact h.holds.congr rfl rfl rfl rfl
  · rw [Threads.broadcast_pc]
    split
    · trivial
    · refine guard_congr (h.guard v) rfl fun hw v => ?_
      rw [Threads.broadcast_pc, if_neg (hw v)]
      exact hw v
  · rw [Threads.broadcast_pc] at hv
    split at hv
    · cases hv
    · contradiction
  · rw [show s.broadcast.printMu = s.printMu from rfl, h.print th]
    exact exists_congr fun v => exists_congr fun t =>
      and_congr_right fun _ => (hkeep (by simp) (by simp)).symm

/-- **The end of a section.** -/
theorem leave (h : InStep a s c) (hl : LockInv a tr c) (hin : (s.pc w).abs.critical)
    (hpc : ∀ v, c'.pc v = ((s.goto w q).pc v).abs) (hpc' : s'.pc = (s.goto w q).pc)
    (hmain : c'.main = c.main) (hmain' : s'.main = s.main) (hmu : c'.mu = s'.mu)
    (hst : ∀ t, (∀ v, s'.pc v ≠ .start t) → s'.status t = c'.status t)
    (hh : s'.Holds c'.shared) (hout : ¬ q.abs.critical) (hp : s'.printMu = s.printMu)
    (hnp : ∀ t, s.pc w ≠ .printing t) : InStep a s' c' := by
  obtain ⟨hw, halone⟩ := h.alone hl hin
  have hout' : ∀ v, ¬ (s'.pc v).abs.critical := by
    intro v
    rw [hpc', Threads.goto_pc]
    split
    · exact hout
    · rename_i hv
      exact halone v hv
  refine ⟨fun v => ?_, ?_, hmu, hst, ?_, fun v => guard_plain (hout' v), fun hu v => ?_,
    fun th => ?_⟩
  · rw [hpc', hpc]
  · rw [hmain, hmain', h.main]
  · have he : s'.expected a c' = c'.shared := by
      rw [Threads.expected]
      rcases s'.mu with _ | _ | v <;> dsimp only
      exact ahead_plain (hout' v)
    rw [he]
    exact hh
  · have hb : c.main = .broadcast := by
      rw [h.main, ← hmain', hu]
      rfl
    have := hl.main_mu.mpr hb
    rw [h.mu, hw] at this
    cases this
  · rw [hp, h.print th]
    refine exists_congr fun v => exists_congr fun t => and_congr_right fun _ => ?_
    refine ⟨fun hv => ?_, fun hv => absurd hv (not_printing_plain (hout' v) t)⟩
    by_cases hvw : v = w
    · subst hvw
      exact absurd hv (hnp t)
    · exact absurd hv (not_printing_plain (halone v hvw) t)

/-- The statuses, behind a worker that set none. -/
theorem status_goto (h : InStep a s c) (hne : ∀ u, s.pc w ≠ .start u) (t : TaskPtr)
    (ht : ∀ v, (s.goto w q).pc v ≠ .start t) : s.status t = c.status t := by
  refine h.status t fun v hv => ?_
  by_cases hvw : v = w
  · subst hvw
    exact hne t hv
  · refine ht v ?_
    rw [Threads.goto_pc, if_neg hvw, hv]

end InStep

/-! ## 4. The statements of a worker -/

/-- The thread can take the step without a fault, and comes to `P`. -/
def ThreadsResult.Ends (P : Threads → Prop) : ThreadsResult → Prop
  | .blocked => True
  | .fault => False
  | .next s => P s

/-- `Parallel` follows. -/
def Followed (a : ParallelArgs) (s : Threads) (c : ParallelState) (s' : Threads) : Prop :=
  s'.main = s.main ∧ ∃ l c', Run (ParallelStep a) c l c' ∧ InStep a s' c'

section Worker

variable (h : InStep a s c) {e : ParallelEvent} {r : WorkerPc} {st : TaskStatus} {ok : Bool}
  {p : Nat}
include h

/-- A part of running a task ends. -/
theorem followed_part (hs : e.Spec a c (c.goto w q.abs)) (hpc : s.pc w = r)
    (hne : ∀ u, r ≠ .start u) (hout : ¬ r.abs.critical) (hout' : ¬ q.abs.critical)
    (hq : q ≠ .waiting) : Followed a s c (s.goto w q) := by
  subst hpc
  exact ⟨rfl, _, _, .single (parallelStep_iff.mpr hs), h.move (goto_abs h.pc w q) rfl h.main id rfl
    rfl rfl (fun _ hd => hd.congr rfl rfl rfl rfl) rfl (h.status_goto hne) hout hout' hq⟩

/-- A statement that `Parallel` does not see. -/
theorem followed_stay (hpc : s.pc w = r) (hne : ∀ u, r ≠ .start u) (hout : ¬ r.abs.critical)
    (hout' : ¬ q.abs.critical) (hq : q ≠ .waiting) (habs : q.abs = r.abs) :
    Followed a s c (s.goto w q) := by
  subst hpc
  exact ⟨rfl, [], c, .refl, h.move (stay_abs h.pc habs) rfl h.main id rfl rfl rfl
    (fun _ hd => hd.congr rfl rfl rfl rfl) rfl (h.status_goto hne) hout hout' hq⟩

/-- A part ends, and sets the status. -/
theorem followed_partStatus (hs : e.Spec a c ((c.goto w q.abs).setStatus t st)) (hpc : s.pc w = r)
    (hne : ∀ u, r ≠ .start u) (hout : ¬ r.abs.critical) (hout' : ¬ q.abs.critical)
    (hq : q ≠ .waiting) : Followed a s c ((s.goto w q).setStatus t st) := by
  subst hpc
  refine ⟨rfl, _, _, .single (parallelStep_iff.mpr hs), h.move (goto_abs h.pc w q) rfl h.main id rfl
    rfl rfl (fun _ hd => hd.congr rfl rfl rfl rfl) rfl (fun u hu => ?_) hout hout' hq⟩
  change Function.update s.status t st u = Function.update c.status t st u
  rw [Function.update_apply, Function.update_apply]
  split
  · rfl
  · exact h.status_goto hne u hu

/-- A worker sets a status that `Parallel` has set with the statement before. -/
theorem followed_lateStatus (hst : c.status t = st) (hpc : s.pc w = r)
    (hne : ∀ u, r = .start u → u = t) (hout : ¬ r.abs.critical) (hout' : ¬ q.abs.critical)
    (hq : q ≠ .waiting) (habs : q.abs = r.abs) : Followed a s c ((s.goto w q).setStatus t st) := by
  subst hpc
  refine ⟨rfl, [], c, .refl, h.move (stay_abs h.pc habs) rfl h.main id rfl rfl rfl
    (fun _ hd => hd.congr rfl rfl rfl rfl) rfl (fun u hu => ?_) hout hout' hq⟩
  change Function.update s.status t st u = c.status u
  rw [Function.update_apply]
  split
  · rename_i hut
    rw [hut, hst]
  · rename_i hut
    refine h.status u fun v hv => ?_
    by_cases hvw : v = w
    · subst hvw
      exact hut (hne u hv)
    · refine hu v ?_
      change (s.goto w q).pc v = _
      rw [Threads.goto_pc, if_neg hvw, hv]

theorem followed_lock (hpc : s.pc w = r) (hq : r.abs.locked = some q.abs)
    (hplain : ∀ d, q.ahead a d = d) (hg : ∀ s c, q.Guard a s c) (hp : ∀ t, q ≠ .printing t)
    (hst : ∀ t, r ≠ .start t) (hw : q ≠ .waiting) (hp' : ∀ t, r ≠ .printing t) :
    (if s.mu = none then ThreadsResult.next { s.goto w q with mu := some (.worker w) }
      else .blocked).Ends (Followed a s c) := by
  subst hpc
  split
  · rename_i hmu
    obtain ⟨hs, hm⟩ := h.lock hmu hq hplain hg hp hst hw hp'
    exact ⟨rfl, _, _, .single hs, hm⟩
  · trivial

/-- Running a task, between the sections. -/
theorem followed_running (ha : a.Linked) (hr : Run (ParallelStep a) (parallelInit a) tr c)
    (hpc : s.pc w = .start t ∨ s.pc w = .hash t ∨ s.pc w = .noHash t ∨ s.pc w = .lookup t ∨
      s.pc w = .command t ∨ s.pc w = .record t ∨ s.pc w = .noExec t) :
    (workerStep a s w ok p).Ends (Followed a s c) := by
  have hc := h.pc w
  have hst := statusInv_of_linked ha hr
  rw [workerStep]
  rcases hpc with hpc | hpc | hpc | hpc | hpc | hpc | hpc <;> rw [hpc] at hc ⊢
  · have hrun : c.status t = .running := hst.expects hc (by simp [WorkerPc.abs]) rfl
    exact followed_lateStatus h hrun hpc (by simp) id id (by simp) rfl
  · cases ok
    · exact followed_stay h hpc (by simp) id id (by simp) rfl
    · exact followed_part h (e := .hash w t true) ⟨hc, rfl⟩ hpc (by simp) id id (by simp)
  · exact followed_partStatus h (e := .hash w t false) ⟨hc, rfl⟩ hpc (by simp) id id (by simp)
  · cases ok
    · exact followed_part h (e := .lookup w t false) ⟨hc, rfl⟩ hpc (by simp) id id (by simp)
    · exact followed_partStatus h (e := .lookup w t true) ⟨hc, rfl⟩ hpc (by simp) id id (by simp)
  · cases ok
    · exact followed_partStatus h (e := .command w t false) ⟨hc, rfl⟩ hpc (by simp) id id (by simp)
    · exact followed_part h (e := .command w t true) ⟨hc, rfl⟩ hpc (by simp) id id (by simp)
  · cases ok
    · exact followed_partStatus h (e := .record w t false) ⟨hc, rfl⟩ hpc (by simp) id id (by simp)
    · exact followed_partStatus h (e := .record w t true) ⟨hc, rfl⟩ hpc (by simp) id id (by simp)
  · have := failed_mem_failures hr w t (.inr (.inl hc))
    exact followed_lateStatus h (hst.bad t this).1 hpc (by simp) id id (by simp) rfl

/-- While a worker in a section does not print, nobody does. -/
theorem printMu_eq_none (hl : LockInv a tr c) (hpc : s.pc w = r) (hin : r.abs.critical)
    (hnp : ∀ t, r ≠ .printing t) : s.printMu = none := by
  subst hpc
  obtain ⟨-, halone⟩ := h.alone hl hin
  rw [Option.eq_none_iff_forall_ne_some]
  intro th hth
  obtain ⟨v, t, -, hv⟩ := (h.print th).mp hth
  by_cases hvw : v = w
  · subst hvw
    exact hnp t hv
  · exact not_printing_plain (halone v hvw) t hv

/-- A statement in a section. -/
theorem followed_inside (hl : LockInv a tr c) (hpc : s.pc w = r) (hin : r.abs.critical)
    (hnp : ∀ t, r ≠ .printing t) (hq : q.abs = r.abs) (hnq : ∀ t, q ≠ .printing t)
    (hpc' : s'.pc = (s.goto w q).pc) (hmain : s'.main = s.main) (hmu : s'.mu = s.mu)
    (hst : s'.status = s.status) (hp : s'.printMu = s.printMu)
    (hh : s.Holds (r.ahead a c.shared) → s'.Holds (q.ahead a c.shared)) (hg : q.Guard a s' c) :
    Followed a s c s' := by
  have hnone := printMu_eq_none h hl hpc hin hnp
  subst hpc
  refine ⟨hmain, [], c, .refl, h.inside hl hin hq hpc' hmain hmu hst
    (hh (h.holds_of_critical hl hin)) hg fun th => ?_⟩
  rw [hp, hnone]
  exact iff_of_false (by simp) fun ⟨_, t, ht⟩ => hnq t ht

/-- The end of a section. -/
theorem followed_leave (hl : LockInv a tr c) (hs : e.Spec a c c') (hpc : s.pc w = r)
    (hin : r.abs.critical) (hnp : ∀ t, r ≠ .printing t) (hne : ∀ t, r ≠ .start t)
    (hout : ¬ q.abs.critical) (hpc' : ∀ v, c'.pc v = ((s.goto w q).pc v).abs)
    (hmain : c'.main = c.main) (hmu : c'.mu = none)
    (hst : ∀ t, (∀ v, (s.goto w q).pc v ≠ .start t) → s.status t = c.status t → 
      s.status t = c'.status t)
    (hh : (s.Holds (r.ahead a c.shared)) → s.Holds c'.shared) :
    Followed a s c { s.goto w q with mu := none } := by
  subst hpc
  refine ⟨rfl, _, _, .single (parallelStep_iff.mpr hs), h.leave hl hin hpc' rfl hmain rfl hmu
    (fun t ht => hst t ht (h.status_goto hne t ht)) ?_ hout rfl hnp⟩
  exact (hh (h.holds_of_critical hl hin)).congr rfl rfl rfl rfl

theorem followed_look (hl : LockInv a tr c) (hpc : s.pc w = .look) :
    (workerStep a s w ok p).Ends (Followed a s c) := by
  have hc : c.pc w = .look := by
    rw [h.pc, hpc]
    rfl
  have hh : s.Holds c.shared := by
    have := h.holds_of_critical hl (w := w) (by rw [hpc]; trivial)
    rwa [hpc] at this
  have hempty : s.queue.head = none ↔ c.ready = [] := hh.queue.head_eq_none
  have hrem : s.remaining = c.remaining := hh.remaining
  rw [workerStep, hpc]
  dsimp only
  split
  · rename_i hw
    rw [hempty, hrem] at hw
    exact followed_leave h hl (e := .wait w) ⟨hc, hw.1, hw.2, rfl⟩ hpc trivial (by simp) (by simp) id
      (goto_abs h.pc w .waiting) rfl rfl (fun _ _ => id) id
  split
  · rename_i hx
    rw [hempty, hrem] at hx
    exact followed_inside h hl (q := .leaving) hpc trivial (by simp) rfl (by simp) rfl rfl rfl rfl rfl
      (fun hd => hd.congr rfl rfl rfl rfl) hx
  rename_i hnw hnx
  rw [hempty, hrem] at hnw hnx
  cases hrd : c.ready with
  | nil =>
    have hq : s.queue.Rep [] := by
      have := hh.queue
      rwa [show c.shared.ready = [] from hrd] at this
    rw [hq.pop_nil]
    exact followed_inside h hl (q := .unlock none) hpc trivial (by simp) rfl (by simp) rfl rfl rfl
      rfl rfl (fun hd => hd.congr rfl rfl rfl rfl) ⟨hrd, by simp only [hrd, true_and] at hnw hnx; omega⟩
  | cons t rest =>
    have hq : s.queue.Rep (t :: rest) := by
      have := hh.queue
      rwa [show c.shared.ready = t :: rest from hrd] at this
    obtain ⟨q', hpop, hq'⟩ := hq.pop_cons
    rw [hpop]
    refine followed_inside h hl (q := .unlock (some t)) hpc trivial (by simp) rfl (by simp) rfl rfl
      rfl rfl rfl (fun hd => ⟨hd.pendingDeps, hd.remaining, hd.failed, ?_⟩) ⟨rest, hrd⟩
    change q'.Rep c.ready.tail
    rwa [hrd]

/-- The unlocks behind the test of the loop. -/
theorem followed_unlock (hl : LockInv a tr c) (hpc : s.pc w = .leaving ∨ ∃ t, s.pc w = .unlock t) :
    (workerStep a s w ok p).Ends (Followed a s c) := by
  have hc := h.pc w
  have hg := h.guard w
  rw [workerStep]
  rcases hpc with hpc | ⟨_ | t, hpc⟩ <;> rw [hpc] at hc hg ⊢
  · exact followed_leave h hl (e := .exit w) ⟨hc, hg.1, hg.2, rfl⟩ hpc trivial (by simp) (by simp) id
      (goto_abs h.pc w .exited) rfl rfl (fun _ _ => id) id
  · exact followed_leave h hl (e := .retry w) ⟨hc, hg.1, hg.2, rfl⟩ hpc trivial (by simp) (by simp)
      id (goto_abs h.pc w .top) rfl rfl (fun _ _ => id) id
  · obtain ⟨rest, hrd⟩ := hg
    refine followed_leave h hl (e := .pop w t) ⟨rest, hrd, hc, rfl⟩ hpc trivial (by simp) (by simp)
      id (goto_abs h.pc w (.start t)) rfl rfl (fun u hu hst => ?_) fun hd => ?_
    · have hne : u ≠ t := by
        rintro rfl
        refine hu w ?_
        rw [Threads.goto_pc, if_pos rfl]
      change _ = Function.update c.status t .running u
      rw [Function.update_of_ne hne, hst]
    · refine ⟨hd.pendingDeps, hd.remaining, hd.failed, ?_⟩
      have := hd.queue
      change s.queue.Rep c.ready.tail at this
      rwa [hrd] at this

/-- A broadcast in a section. -/
theorem followed_wake (hr : Run (ParallelStep a) (parallelInit a) tr c) (hpc : s.pc w = r)
    (hin : r.abs.critical) (hnp : ∀ t, r ≠ .printing t) (hq : q.abs = r.abs)
    (hnq : ∀ t, q ≠ .printing t) (hh : q.ahead a c.shared = r.ahead a c.shared)
    (hg : (∀ v, (s.broadcast.goto w q).pc v ≠ .waiting) →
      q.Guard a (s.broadcast.goto w q) c.broadcast) :
    Followed a s c (s.broadcast.goto w q) := by
  have hl := lockInv_run hr
  have hwait : ∀ {p : WorkerPc}, p.abs.critical → p ≠ .waiting := by
    rintro p hp rfl
    exact hp
  have hborn : ∀ v, c.pc v = .waiting → v < a.workers := fun v hv => hl.lt_workers (by simp [hv])
  obtain ⟨l, hrun⟩ := run_broadcast hborn
  have hpc' : s.broadcast.pc w = r := by
    rw [Threads.broadcast_pc, if_neg (hpc ▸ hwait hin), hpc]
  have hnone : ∀ v, (s.broadcast.goto w q).pc v ≠ .waiting := by
    intro v
    rw [Threads.goto_pc]
    split
    · exact hwait (hq ▸ hin)
    · rw [Threads.broadcast_pc]
      split
      · simp
      · assumption
  obtain ⟨hm, l', c', hrun', hmat⟩ : Followed a s.broadcast c.broadcast (s.broadcast.goto w q) :=
    followed_inside h.broadcast (lockInv_run (hr.append hrun)) hpc' hin hnp hq hnq rfl rfl rfl rfl
      rfl (fun hd => hh.symm ▸ hd.congr rfl rfl rfl rfl) (hg hnone)
  exact ⟨hm, _, c', hrun.append hrun', hmat⟩

/-- The section after `compute_task_hash` failed. -/
theorem followed_hashFailed (hr : Run (ParallelStep a) (parallelInit a) tr c)
    (hpc : s.pc w = .hashFailed t ∨ s.pc w = .hashRemaining t ∨ s.pc w = .hashWake t ∨
      s.pc w = .hashUnlock t) : (workerStep a s w ok p).Ends (Followed a s c) := by
  have hl := lockInv_run hr
  have hc := h.pc w
  have hg := h.guard w
  rw [workerStep]
  rcases hpc with hpc | hpc | hpc | hpc <;> rw [hpc] at hc hg ⊢
  · exact followed_inside h hl (q := .hashRemaining t) hpc trivial (by simp) rfl (by simp) rfl rfl
      rfl rfl rfl (fun hd => ⟨hd.pendingDeps, hd.remaining, rfl, hd.queue⟩) trivial
  · exact followed_inside h hl (q := .hashWake t) hpc trivial (by simp) rfl (by simp) rfl rfl
      rfl rfl rfl (fun hd => ⟨hd.pendingDeps, congrArg (· - 1) hd.remaining, hd.failed, hd.queue⟩)
      trivial
  · exact followed_wake h hr hpc trivial (by simp) rfl (by simp) rfl id
  · refine followed_leave h hl (e := .hashFailed w t) ⟨hc, rfl⟩ hpc trivial (by simp) (by simp)
      id (goto_wake_abs (q := .top) h.pc hg (by simp) w) rfl rfl (fun _ _ => id)
      fun hd => ⟨hd.pendingDeps, hd.remaining, hd.failed, hd.queue⟩

/-- The section that a failed `execute_task` begins. -/
theorem followed_failed (hr : Run (ParallelStep a) (parallelInit a) tr c)
    (hpc : s.pc w = .failed t) : (workerStep a s w ok p).Ends (Followed a s c) := by
  have hl := lockInv_run hr
  have hc := h.pc w
  rw [workerStep]
  rw [hpc] at hc ⊢
  have hh := h.holds_of_critical hl (w := w) (by rw [hpc]; trivial)
  rw [hpc] at hh
  refine ⟨rfl, [.failed w t], { c.goto w (.lockDone t) with failed := true },
    .single (parallelStep_iff.mpr ⟨hc, rfl⟩), ?_⟩
  exact h.leave (w := w) (q := .lockDone t) hl (by rw [hpc]; trivial) (goto_abs h.pc w (.lockDone t))
    rfl rfl rfl h.mu (h.status_goto (by simp [hpc])) ⟨hh.pendingDeps, hh.remaining, rfl, hh.queue⟩ id
    rfl (by simp [hpc])

/-- The section "after completion", up to its printing. -/
theorem followed_print (hr : Run (ParallelStep a) (parallelInit a) tr c)
    (hpc : s.pc w = .done t ∨ s.pc w = .lockPrint t ∨ s.pc w = .printing t) :
    (workerStep a s w ok p).Ends (Followed a s c) := by
  have hl := lockInv_run hr
  have hh : (s.pc w).abs.critical → _ := h.holds_of_critical hl
  rw [workerStep]
  rcases hpc with hpc | hpc | hpc <;> rw [hpc] at hh ⊢
  · exact followed_inside h hl (q := .lockPrint t) hpc trivial (by simp) rfl (by simp) rfl rfl
      rfl rfl rfl (fun hd => ⟨hd.pendingDeps, congrArg (· - 1) hd.remaining, hd.failed, hd.queue⟩)
      trivial
  · dsimp only
    rw [if_pos (printMu_eq_none h hl hpc trivial (by simp))]
    refine ⟨rfl, [], c, .refl, h.inside (w := w) (q := .printing t) hl (by rw [hpc]; trivial)
      (by rw [hpc]; rfl) rfl rfl rfl rfl ((hh trivial).congr rfl rfl rfl rfl) trivial fun th => ?_⟩
    simp [eq_comm]
  · refine ⟨rfl, [], c, .refl, h.inside (w := w) (q := .release t 0) hl (by rw [hpc]; trivial)
      (by rw [hpc]; rfl) rfl rfl rfl rfl ((hh trivial).congr rfl rfl rfl rfl) trivial fun th => ?_⟩
    simp

/-- The loop over the dependents. -/
theorem followed_release (hr : Run (ParallelStep a) (parallelInit a) tr c) {i : Nat}
    (hpc : s.pc w = .release t i) : (workerStep a s w ok p).Ends (Followed a s c) := by
  have hl := lockInv_run hr
  rw [workerStep, hpc]
  dsimp only
  cases hd : (dependentsOf a.list t)[i]? with
  | none =>
    refine followed_inside h hl (q := .wakeAll t) hpc trivial (by simp) rfl (by simp) rfl rfl
      rfl rfl rfl (fun hh => ?_) trivial
    rw [WorkerPc.ahead, ← Shared.releaseFirst_of_none hd]
    exact hh.congr rfl rfl rfl rfl
  | some dep =>
    dsimp only
    rw [← slot]
    cases hidx : slot a dep with
    | none =>
      refine followed_inside h hl (q := .release t (i + 1)) hpc trivial (by simp) rfl (by simp) rfl
        rfl rfl rfl rfl (fun hh => ?_) trivial
      rw [WorkerPc.ahead, Shared.releaseFirst_succ hd, Shared.release_of_none hidx]
      exact hh.congr rfl rfl rfl rfl
    | some idx =>
      dsimp only
      rw [Function.update_self]
      have hpd : s.pendingDeps = (c.shared.releaseFirst a t i).pendingDeps := by
        have := h.holds_of_critical hl (w := w) (by rw [hpc]; trivial)
        rw [hpc] at this
        exact this.pendingDeps
      split
      · rename_i h0
        refine followed_inside h hl (q := .push t i) hpc trivial (by simp) rfl (by simp) rfl rfl
          rfl rfl rfl (fun hh => ?_) ⟨dep, hd, idx, hidx, hpd ▸ h0⟩
        rw [WorkerPc.ahead, hd]
        dsimp only
        rw [Shared.lower_of_some hidx]
        exact ⟨by rw [hpd], hh.remaining, hh.failed, hh.queue⟩
      · rename_i h0
        refine followed_inside h hl (q := .release t (i + 1)) hpc trivial (by simp) rfl (by simp) rfl
          rfl rfl rfl rfl (fun hh => ?_) trivial
        rw [WorkerPc.ahead, Shared.releaseFirst_succ hd,
          Shared.release_of_not_due hidx (hpd ▸ h0), Shared.lower_of_some hidx]
        exact ⟨by rw [hpd], hh.remaining, hh.failed, hh.queue⟩

/-- The push for a dependent that nothing is pending for. -/
theorem followed_push (hr : Run (ParallelStep a) (parallelInit a) tr c) {i : Nat}
    (hpc : s.pc w = .push t i) : (workerStep a s w ok p).Ends (Followed a s c) := by
  have hl := lockInv_run hr
  have hg := h.guard w
  have hh := h.holds_of_critical hl (w := w) (by rw [hpc]; trivial)
  rw [hpc] at hg hh
  obtain ⟨dep, hd, hdue⟩ := hg
  rw [workerStep, hpc]
  dsimp only
  rw [hd]
  dsimp only
  split
  · trivial
  · rename_i hfree
    rw [WorkerPc.ahead, hd] at hh
    obtain ⟨queue, hpush, hrep⟩ := hh.queue.push (not_not.mp hfree) dep
    rw [hpush]
    refine followed_inside h hl (q := .wake t i) hpc trivial (by simp) rfl (by simp) rfl rfl rfl
      rfl rfl (fun _ => ?_) trivial
    rw [WorkerPc.ahead, Shared.releaseFirst_succ hd, Shared.release_of_due hdue]
    refine ⟨hh.pendingDeps, hh.remaining, hh.failed, ?_⟩
    rwa [Shared.lower_ready] at hrep

/-- The end of the section "after completion". -/
theorem followed_unlockDone (hr : Run (ParallelStep a) (parallelInit a) tr c)
    (hpc : s.pc w = .unlockDone t) : (workerStep a s w ok p).Ends (Followed a s c) := by
  have hl := lockInv_run hr
  have hc := h.pc w
  have hg := h.guard w
  rw [hpc] at hc hg
  rw [workerStep, hpc]
  obtain ⟨pd, rd, hfold⟩ := foldl_releaseDependent (a := a) (dependentsOf a.list t)
    { (c.goto w .top).broadcast.setMu none with remaining := c.remaining - 1 }
  refine followed_leave h hl (q := .top) (e := .done w t) ⟨hc, rfl⟩ hpc trivial (by simp) (by simp)
    id (fun v => ?_) ?_ ?_ (fun u _ hst => ?_) fun hd => ?_
  · rw [hfold]
    exact goto_wake_abs (q := .top) h.pc hg (by simp) w v
  · rw [hfold]
    rfl
  · rw [hfold]
    rfl
  · rw [hfold]
    exact hst
  · rw [foldl_releaseDependent_shared]
    rw [WorkerPc.ahead, Shared.releaseFirst, List.take_length] at hd
    exact hd

/-- **A statement of a worker.** -/
theorem followed_worker (ha : a.Linked) (hr : Run (ParallelStep a) (parallelInit a) tr c) :
    (workerStep a s w ok p).Ends (Followed a s c) := by
  have hl := lockInv_run hr
  cases hpc : s.pc w with
  | unborn | waiting | exited =>
    rw [workerStep, hpc]
    trivial
  | top | woken | lockHashFailed | lockFailed | lockDone =>
    rw [workerStep, hpc]
    exact followed_lock h hpc rfl (fun _ => rfl) (fun _ _ => trivial) (by simp) (by simp) (by simp)
      (by simp)
  | look => exact followed_look h hl hpc
  | leaving => exact followed_unlock h hl (.inl hpc)
  | unlock t => exact followed_unlock h hl (.inr ⟨t, hpc⟩)
  | start t | hash t | noHash t | lookup t | command t | record t | noExec t =>
    exact followed_running h ha hr (t := t) (by simp [hpc])
  | hashFailed t | hashRemaining t | hashWake t | hashUnlock t =>
    exact followed_hashFailed h hr (t := t) (by simp [hpc])
  | failed t => exact followed_failed h hr hpc
  | done t | lockPrint t | printing t => exact followed_print h hr (t := t) (by simp [hpc])
  | release t i => exact followed_release h hr hpc
  | push t i => exact followed_push h hr hpc
  | wake t i =>
    rw [workerStep, hpc]
    exact followed_wake h hr hpc trivial (by simp) rfl (by simp) rfl fun _ => trivial
  | wakeAll t =>
    rw [workerStep, hpc]
    exact followed_wake h hr hpc trivial (by simp) rfl (by simp) rfl id
  | unlockDone t => exact followed_unlockDone h hr hpc

end Worker

end ReproVM
