/-
# How long the parallel executor runs

A worker goes through a task in a bounded number of steps, and it waits for the mutex once for
each time it is woken.  What is woken is paid for by the completed task, or by the main thread, so
only wakeups without a signal can keep the workers going: every other step lowers the potential
(`potential_step`), and a run is longer than its start allows by such wakeups only
(`length_le_of_run`).
-/
import Mathlib.Algebra.BigOperators.Group.Finset.Basic
import Mathlib.Algebra.Order.BigOperators.Group.Finset
import ReproVM.ParallelCounts

namespace ReproVM

open Lib (Run)

variable {a : ParallelArgs} {s s' : ParallelState} {e : ParallelEvent} {tr : List ParallelEvent}

/-! ## 1. The potential -/

/-- A bound on the steps of a worker up to the next wait, exit or end of a task. -/
def Pc.cost : Pc → Nat
  | .unborn => 10
  | .top | .woken => 9
  | .look => 8
  | .hash _ => 7
  | .lookup _ => 6
  | .command _ => 5
  | .record _ => 4
  | .lockFailed _ => 3
  | .failed _ => 2
  | .lockHashFailed _ | .lockDone _ => 1
  | .waiting | .hashFailed _ | .done _ | .exited => 0

/-- The steps of the main thread, and of those that its broadcast wakes. -/
def MainPc.cost (workers : Nat) : MainPc → Nat
  | .spawn _ => 10 * workers + 2
  | .broadcast => 10 * workers + 1
  | .join i => workers - i

def workersCost (a : ParallelArgs) (pc : Nat → Pc) : Nat :=
  ∑ w ∈ Finset.range a.workers, (pc w).cost

/-- A task that is completed pays for waking everybody. -/
def potential (a : ParallelArgs) (s : ParallelState) : Int :=
  (9 * a.workers + 10) * s.remaining + workersCost a s.pc + s.main.cost a.workers

def ParallelEvent.isSpurious : ParallelEvent → Bool
  | .spurious _ => true
  | _ => false

/-! ## 2. One worker moves, or all are woken -/

theorem LockInv.lt_workers (hl : LockInv a tr s) {w : Nat} (h : s.pc w ≠ .unborn) : w < a.workers :=
  lt_of_lt_of_le (Nat.lt_of_not_le fun hw => h ((hl.unborn w).mpr hw)) hl.created_le

theorem workersCost_goto {w : Nat} (hw : w < a.workers) (pc : Pc) :
    workersCost a (s.goto w pc).pc + (s.pc w).cost = workersCost a s.pc + pc.cost := by
  have hmem := Finset.mem_range.mpr hw
  rw [workersCost, workersCost, ← Finset.add_sum_erase _ _ hmem, ← Finset.add_sum_erase _ _ hmem,
    goto_pc, if_pos rfl]
  have hrest : ∑ v ∈ (Finset.range a.workers).erase w, ((s.goto w pc).pc v).cost =
      ∑ v ∈ (Finset.range a.workers).erase w, (s.pc v).cost :=
    Finset.sum_congr rfl fun v hv => by rw [goto_pc, if_neg (Finset.ne_of_mem_erase hv)]
  omega

theorem workersCost_broadcast (s : ParallelState) :
    workersCost a s.broadcast.pc ≤ workersCost a s.pc + 9 * a.workers := by
  calc workersCost a s.broadcast.pc
      ≤ ∑ w ∈ Finset.range a.workers, ((s.pc w).cost + 9) := by
        refine Finset.sum_le_sum fun w _ => ?_
        rw [broadcast_pc]
        split
        · exact Nat.le_add_left ..
        · exact Nat.le_add_right ..
    _ = workersCost a s.pc + 9 * a.workers := by
        rw [Finset.sum_add_distrib, Finset.sum_const, Finset.card_range, Nat.nsmul_eq_mul, mul_comm]
        rfl

/-- A worker that goes to a cheaper place. -/
theorem potential_goto (hl : LockInv a tr s) {w : Nat} {q : Pc} (hborn : s.pc w ≠ .unborn) {k : Nat}
    (hcost : q.cost + 1 ≤ (s.pc w).cost + k) (hpc : s'.pc = (s.goto w q).pc)
    (hmain : s'.main = s.main) (hrem : s'.remaining = s.remaining) :
    potential a s' + 1 ≤ potential a s + k := by
  have hgoto := workersCost_goto (s := s) (hl.lt_workers hborn) q
  rw [potential, potential, hmain, hrem, hpc]
  omega

/-- A task that is completed or given up, and the broadcast after it. -/
theorem potential_complete (hl : LockInv a tr s) {w : Nat} (hborn : s.pc w ≠ .unborn)
    (hpc : s'.pc = (s.goto w .top).broadcast.pc) (hmain : s'.main = s.main)
    (hrem : s'.remaining = s.remaining - 1) : potential a s' + 1 ≤ potential a s := by
  have hgoto := workersCost_goto (s := s) (hl.lt_workers hborn) .top
  have hwake := workersCost_broadcast (a := a) (s.goto w .top)
  rw [show Pc.top.cost = 9 from rfl] at hgoto
  rw [potential, potential, hmain, hrem, hpc, mul_sub, mul_one]
  omega

/-! ## 3. Every step -/

/-- **A step** lowers the potential, unless it is a wakeup without a signal. -/
theorem potential_step (hl : LockInv a tr s) (h0 : 0 ≤ s.remaining) (hs : ParallelStep a s e s') :
    potential a s' + 1 ≤ potential a s + (if e.isSpurious then 10 else 0 : Nat) := by
  rw [parallelStep_iff] at hs
  cases e with
  | spawn =>
    obtain ⟨i, hi, hm, rfl⟩ := hs
    have hub : s.pc i = .unborn := (hl.unborn i).mpr (by rw [hm]; exact Nat.le_refl i)
    have hgoto := workersCost_goto (s := s) hi .top
    rw [hub] at hgoto
    simp only [potential, hm, MainPc.cost, Pc.cost, goto_remaining] at hgoto ⊢
    omega
  | mainLock =>
    obtain ⟨hm, -, rfl⟩ := hs
    simp only [potential, hm, MainPc.cost, setMu_pc, setMu_remaining]
    omega
  | mainBroadcast =>
    obtain ⟨hm, rfl⟩ := hs
    have hwake := workersCost_broadcast (a := a) s
    simp only [potential, hm, MainPc.cost, setMu_pc, setMu_remaining, broadcast_remaining]
    omega
  | join =>
    obtain ⟨i, hi, hm, -, rfl⟩ := hs
    simp only [potential, hm, MainPc.cost]
    omega
  | lock w =>
    obtain ⟨-, pc, hpc, rfl⟩ := hs
    refine potential_goto hl (w := w) (q := pc) (k := 0) ?_ ?_ rfl rfl rfl
    · intro hu
      rw [hu] at hpc
      cases hpc
    · revert hpc
      cases s.pc w <;> intro hpc <;> cases hpc <;> simp [Pc.cost]
  | retry w =>
    obtain ⟨-, -, hneg, -⟩ := hs
    omega
  | wait w | exit w =>
    obtain ⟨hpc, -, -, rfl⟩ := hs
    exact potential_goto hl (w := w) (k := 0) (by simp [hpc]) (by simp [hpc, Pc.cost]) rfl rfl rfl
  | pop w t =>
    obtain ⟨rest, -, hpc, rfl⟩ := hs
    exact potential_goto hl (w := w) (k := 0) (by simp [hpc]) (by simp [hpc, Pc.cost]) rfl rfl rfl
  | hash w t ok | lookup w t ok | command w t ok | record w t ok =>
    cases ok <;> obtain ⟨hpc, rfl⟩ := hs <;>
      exact potential_goto hl (w := w) (k := 0) (by simp [hpc]) (by simp [hpc, Pc.cost]) rfl rfl rfl
  | failed w t =>
    obtain ⟨hpc, rfl⟩ := hs
    exact potential_goto hl (w := w) (k := 0) (by simp [hpc]) (by simp [hpc, Pc.cost]) rfl rfl rfl
  | spurious w =>
    obtain ⟨hpc, rfl⟩ := hs
    exact potential_goto hl (w := w) (k := 10) (by simp [hpc]) (by simp [hpc, Pc.cost]) rfl rfl rfl
  | hashFailed w t =>
    obtain ⟨hpc, hs'⟩ := hs
    have hle : potential a s' + 1 ≤ potential a s :=
      potential_complete hl (w := w) (by simp [hpc]) (by rw [hs']; rfl) (by rw [hs']; rfl) (by rw [hs'])
    simpa [ParallelEvent.isSpurious] using hle
  | done w t =>
    obtain ⟨hpc, pd, rd, hs'⟩ := ParallelEvent.Spec.done hs
    have hle : potential a s' + 1 ≤ potential a s :=
      potential_complete hl (w := w) (by simp [hpc]) (by rw [hs']; rfl) (by rw [hs']; rfl) (by rw [hs'])
    simpa [ParallelEvent.isSpurious] using hle

/-! ## 4. Every run -/

theorem remaining_nonneg (hh : HoldInv tr s) (hq : QueueInv a tr s) : 0 ≤ s.remaining := by
  obtain ⟨hnd, hpop⟩ := hh.ended
  have hlen := (hnd.subperm fun t ht => hq.sub t (List.mem_append_left _ (hpop t ht))).length_le
  have := hq.remaining
  rw [List.length_append] at hlen
  omega

theorem potential_nonneg (h0 : 0 ≤ s.remaining) : 0 ≤ potential a s := by
  have := mul_nonneg (show (0 : Int) ≤ 9 * a.workers + 10 by omega) h0
  rw [potential]
  omega

theorem potential_init : potential a (parallelInit a) =
    (9 * a.workers + 10) * a.subset.length + (20 * a.workers + 2) := by
  have hcost : workersCost a (parallelInit a).pc = 10 * a.workers := by
    have hborn : ∀ w, ((parallelInit a).pc w).cost = 10 := fun w => rfl
    simp only [workersCost, hborn, Finset.sum_const, Finset.card_range, Nat.nsmul_eq_mul, mul_comm]
  rw [potential, hcost]
  simp only [parallelInit, MainPc.cost]
  omega

/-- **The length of a run**, but for the wakeups without a signal. -/
theorem length_le_of_run (ha : a.Ok) (h : Run (ParallelStep a) (parallelInit a) tr s) :
    tr.length ≤ (9 * a.workers + 10) * a.subset.length + (20 * a.workers + 2) +
      10 * tr.countP ParallelEvent.isSpurious := by
  have hrem : ∀ {tr s}, Run (ParallelStep a) (parallelInit a) tr s → 0 ≤ s.remaining := fun h =>
    remaining_nonneg (counts_run ha h).1 (counts_run ha h).2
  have hle := h.length_le (μ := potential a) (p := ParallelEvent.isSpurious) (k := 10)
    fun tr t e u hr hs => potential_step (lockInv_run hr) (hrem hr) hs
  have hnonneg := potential_nonneg (a := a) (hrem h)
  rw [potential_init] at hle
  have hlen : (tr.length : Int) ≤ (9 * a.workers + 10) * a.subset.length +
      (20 * a.workers + 2) + 10 * tr.countP ParallelEvent.isSpurious := by omega
  exact_mod_cast hlen

end ReproVM
