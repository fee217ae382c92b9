/-
# When the executor returns, and what it makes of the tasks

A run that cannot go on has returned if and only if nothing in it hangs a worker: no failed
`execute_task`, no failed hash of a task that others of the subset depend on, and no cycle of
dependencies in the subset.  `ParallelProgress` has one direction.  For the other, a failure stays
with its worker until the worker has told of it, a task above one without a hash is never
released, and neither is a task on a cycle; but a return has seen every task completed.

Whatever the names, a status only goes on from pending to running and from there to one of the
three ends, and it tells where its task is.
-/
import ReproVM.ParallelNames
import ReproVM.ParallelProgress

namespace ReproVM

open Bytes (ascii)
open Lib (Run)
open Relation

variable {a : ParallelArgs} {s s' : ParallelState} {e : ParallelEvent} {tr : List ParallelEvent}
  {w : Nat} {t u : TaskPtr}

/-! ## 1. A failure stays with its worker -/

/-- A place where a worker holds a task moves by an event of this worker only. -/
theorem holder_step (hl : LockInv a tr s) (hs : ParallelStep a s e s') (ht : (s.pc w).task = some t) :
    s'.pc w = s.pc w ∨ e.Moves w (s.pc w) (s'.pc w) ∧ e ≠ .spawn := by
  rcases pc_step hs w with h | ⟨h, -⟩ | h
  · exact .inl h
  · rw [h] at ht
    cases ht
  · by_cases hsp : e = .spawn
    · subst hsp
      obtain ⟨i, -, hm, rfl⟩ := parallelStep_iff.mp hs
      have hi : s.pc i = .unborn := (hl.unborn i).mpr (by rw [hm]; exact Nat.le_refl i)
      have hwi : w ≠ i := by
        rintro rfl
        rw [hi] at ht
        cases ht
      exact .inl ((goto_pc s i .top w).trans (if_neg hwi))
    · exact .inr ⟨h, hsp⟩

/-- The worker is about to tell of a failed `execute_task`. -/
def Pc.InFailed (t : TaskPtr) (p : Pc) : Prop := p = .lockFailed t ∨ p = .failed t

/-- The worker is about to tell of a failed hash. -/
def Pc.InHashFailed (t : TaskPtr) (p : Pc) : Prop := p = .lockHashFailed t ∨ p = .hashFailed t

theorem inFailed_step (hl : LockInv a tr s) (hs : ParallelStep a s e s')
    (h : (s.pc w).InFailed t) : (s'.pc w).InFailed t ∨ e = .failed w t := by
  have ht : (s.pc w).task = some t := by rcases h with h | h <;> rw [h] <;> rfl
  rcases holder_step hl hs ht with h1 | ⟨h1, hsp⟩
  · rw [h1]
    exact .inl h
  · rcases h with h | h
    · rw [h] at h1
      generalize s'.pc w = q at h1 ⊢
      cases h1 with
      | spawn => exact absurd rfl hsp
      | lock hq => exact .inl (.inr (Option.some.inj hq).symm)
    · rw [h] at h1
      generalize s'.pc w = q at h1 ⊢
      cases h1 with
      | spawn => exact absurd rfl hsp
      | lock hq => cases hq
      | failed => exact .inr rfl

theorem inHashFailed_step (hl : LockInv a tr s) (hs : ParallelStep a s e s')
    (h : (s.pc w).InHashFailed t) : (s'.pc w).InHashFailed t ∨ e = .hashFailed w t := by
  have ht : (s.pc w).task = some t := by rcases h with h | h <;> rw [h] <;> rfl
  rcases holder_step hl hs ht with h1 | ⟨h1, hsp⟩
  · rw [h1]
    exact .inl h
  · rcases h with h | h
    · rw [h] at h1
      generalize s'.pc w = q at h1 ⊢
      cases h1 with
      | spawn => exact absurd rfl hsp
      | lock hq => exact .inl (.inr (Option.some.inj hq).symm)
    · rw [h] at h1
      generalize s'.pc w = q at h1 ⊢
      cases h1 with
      | spawn => exact absurd rfl hsp
      | lock hq => cases hq
      | hashFailed => exact .inr rfl

/-- Every failure was told, or its worker is about to. -/
structure ToldInv (tr : List ParallelEvent) (s : ParallelState) : Prop where
  failed : ∀ w t, .command w t false ∈ tr ∨ .record w t false ∈ tr →
    .failed w t ∈ tr ∨ (s.pc w).InFailed t
  hash : ∀ w t, .hash w t false ∈ tr → t ∈ hashFailures tr ∨ (s.pc w).InHashFailed t

theorem ToldInv.step (h : ToldInv tr s) (hl : LockInv a tr s) (hs : ParallelStep a s e s') :
    ToldInv (tr ++ [e]) s' where
  failed w t hf := by
    simp only [List.mem_append, List.mem_singleton] at hf ⊢
    have hold : .command w t false ∈ tr ∨ .record w t false ∈ tr →
        (.failed w t ∈ tr ∨ .failed w t = e) ∨ (s'.pc w).InFailed t := by
      intro hold
      rcases h.failed w t hold with h1 | h1
      · exact .inl (.inl h1)
      · rcases inFailed_step hl hs h1 with h2 | h2
        · exact .inr h2
        · exact .inl (.inr h2.symm)
    rcases hf with (hf | rfl) | (hf | rfl)
    · exact hold (.inl hf)
    · obtain ⟨-, rfl⟩ := parallelStep_iff.mp hs
      exact .inr (.inl (by simp [goto_pc]))
    · exact hold (.inr hf)
    · obtain ⟨-, rfl⟩ := parallelStep_iff.mp hs
      exact .inr (.inl (by simp [goto_pc]))
  hash w t hf := by
    rw [hashFailures_append]
    simp only [List.mem_append, List.mem_singleton] at hf ⊢
    rcases hf with hf | rfl
    · rcases h.hash w t hf with h1 | h1
      · exact .inl (.inl h1)
      · rcases inHashFailed_step hl hs h1 with h2 | rfl
        · exact .inr h2
        · exact .inl (.inr (by simp [hashFailures]))
    · obtain ⟨-, rfl⟩ := parallelStep_iff.mp hs
      exact .inr (.inl (by simp [goto_pc]))

theorem toldInv_run (h : Run (ParallelStep a) (parallelInit a) tr s) : ToldInv tr s :=
  Run.inv ⟨by simp, by simp⟩ (fun _ _ _ _ hr hi hs => hi.step (lockInv_run hr) hs) h

/-! ## 2. What is never released -/

/-- Only a `pop` takes a task off the queue. -/
theorem popped_step (hs : ParallelStep a s e s') (ht : t ∈ popped (tr ++ [e])) :
    t ∈ popped tr ++ s.ready := by
  rw [popped_append, List.mem_append] at ht
  rcases ht with ht | ht
  · exact List.mem_append_left _ ht
  · cases e with
    | pop w v =>
      obtain rfl : t = v := by simpa [popped] using ht
      obtain ⟨rest, hr, -⟩ := parallelStep_iff.mp hs
      rw [hr]
      simp
    | _ => simp [popped] at ht

/-- **A task on a cycle** is never released: one below it on the cycle was completed before. -/
theorem released_not_cycle (ha : a.Ok) (h : Run (ParallelStep a) (parallelInit a) tr s) :
    ∀ t ∈ popped tr ++ s.ready, ¬ SubsetCycle a t := by
  have hnext : ∀ {tr s}, Run (ParallelStep a) (parallelInit a) tr s →
      (∀ u ∈ popped tr, ¬ SubsetCycle a u) → ∀ t ∈ popped tr ++ s.ready, ¬ SubsetCycle a t := by
    intro tr s hr hpop t ht hc
    obtain ⟨hh, hq⟩ := counts_run ha hr
    obtain ⟨u, ⟨hd, hu⟩, hut⟩ := TransGen.head'_iff.mp hc
    have hfin := hq.below ht hu hd
    refine hpop u (hh.ended.2 u (List.mem_append_left _ hfin)) ?_
    rcases reflTransGen_iff_eq_or_transGen.mp hut with rfl | hut
    · exact hc
    · exact hut.tail ⟨hd, hu⟩
  induction h with
  | refl => exact hnext .refl (by simp [popped])
  | @snoc tr s e s' hr hs ih =>
    exact hnext (hr.snoc hs) fun u hu => ih u (popped_step hs hu)

/-- A task above one without a hash is never released. -/
theorem hashFailures_leaf (ha : a.Ok) (h : Run (ParallelStep a) (parallelInit a) tr s)
    (hu : u ∈ popped tr) (ht : t ∈ hashFailures tr) : ¬ DependsOn a.list u t := by
  obtain ⟨hh, hq⟩ := counts_run ha h
  intro hd
  have hsub : t ∈ a.subset :=
    hq.sub t (List.mem_append_left _ (hh.ended.2 t (List.mem_append_right _ ht)))
  have hfin := hq.below (List.mem_append_left _ hu) hsub hd
  exact List.disjoint_of_nodup_append hh.ended.1 hfin ht

/-! ## 3. The return -/

/-- Where all workers are joined, all threads are gone. -/
theorem idle_of_joined (hl : LockInv a tr s) (hi : ReturnInv tr s) (hm : s.main = .join a.workers)
    (w : Nat) : s.pc w = .exited ∨ s.pc w = .unborn := by
  by_cases hw : w < a.workers
  · exact .inl (hi.joined _ hm w hw)
  · exact .inr ((hl.unborn w).mpr (by rw [hm]; exact Nat.le_of_not_lt hw))

/-- Nothing happens after the return. -/
theorem not_enabled_of_joined (hl : LockInv a tr s) (hi : ReturnInv tr s)
    (hm : s.main = .join a.workers) : ¬ Enabled a s := by
  rintro ⟨e, s', hs, hsp⟩
  have hidle := idle_of_joined hl hi hm
  have hno : ∀ {v pc}, s.pc v = pc → pc ≠ .exited → pc ≠ .unborn → False := by
    intro v pc hpc h1 h2
    rcases hidle v with h | h
    · exact h1 (hpc.symm.trans h)
    · exact h2 (hpc.symm.trans h)
  rw [parallelStep_iff] at hs
  cases e with
  | spawn =>
    obtain ⟨j, -, hj, -⟩ := hs
    simp [hm] at hj
  | mainLock =>
    obtain ⟨hj, -⟩ := hs
    simp [hm] at hj
  | mainBroadcast =>
    obtain ⟨hj, -⟩ := hs
    simp [hm] at hj
  | join =>
    obtain ⟨j, hj, hmj, -⟩ := hs
    obtain rfl : a.workers = j := by simpa using hm.symm.trans hmj
    exact absurd hj (Nat.lt_irrefl _)
  | lock v =>
    obtain ⟨-, pc, hpc, -⟩ := hs
    rcases hidle v with h | h <;> rw [h] at hpc <;> cases hpc
  | pop v u =>
    obtain ⟨rest, -, hpc, -⟩ := hs
    exact hno hpc (by simp) (by simp)
  | hash v u ok => cases ok <;> exact hno hs.1 (by simp) (by simp)
  | lookup v u hit => cases hit <;> exact hno hs.1 (by simp) (by simp)
  | command v u ok => cases ok <;> exact hno hs.1 (by simp) (by simp)
  | record v u ok => cases ok <;> exact hno hs.1 (by simp) (by simp)
  | spurious v => exact hsp v rfl
  | _ => exact hno hs.1 (by simp) (by simp)

/-- A return has seen no failure that hangs a worker, and no cycle. -/
theorem harmless_of_returns (ha : a.Ok) (hw : 0 < a.workers) (hne : a.subset ≠ [])
    (h : Run (ParallelStep a) (parallelInit a) tr s) {r : Nat} (hr : ParallelReturns a s r) :
    (∀ e ∈ tr, e.Harmless a) ∧ ∀ t ∈ a.subset, ¬ SubsetCycle a t := by
  have hl := lockInv_run h
  have hi := returnInv_run ha h
  have htold := toldInv_run h
  obtain ⟨hh, hq⟩ := counts_run ha h
  obtain ⟨-, hperm, -⟩ := returns_completed ha hw h hr
  rw [ParallelReturns, if_neg hne] at hr
  have hfailed := not_failed_of_joined hl hi hr.1
  have hpopped : ∀ t ∈ a.subset, t ∈ popped tr := fun t ht =>
    hh.ended.2 t (hperm.mem_iff.mpr ht)
  -- nobody holds a task
  have hnot : ∀ w t, ¬ (s.pc w).InFailed t ∧ ¬ (s.pc w).InHashFailed t := by
    intro w t
    rcases idle_of_joined hl hi hr.1 w with h1 | h1 <;> rw [h1] <;>
      simp [Pc.InFailed, Pc.InHashFailed]
  refine ⟨fun e he => ?_, fun t ht => released_not_cycle ha h t (List.mem_append_left _ (hpopped t ht))⟩
  cases e with
  | command w t ok =>
    cases ok with
    | true => trivial
    | false =>
      rcases htold.failed w t (.inl he) with h1 | h1
      · exact absurd h1 (hfailed w t)
      · exact absurd h1 (hnot w t).1
  | record w t ok =>
    cases ok with
    | true => trivial
    | false =>
      rcases htold.failed w t (.inr he) with h1 | h1
      · exact absurd h1 (hfailed w t)
      · exact absurd h1 (hnot w t).1
  | hash w t ok =>
    cases ok with
    | true => trivial
    | false =>
      intro u hu
      rcases htold.hash w t he with h1 | h1
      · exact hashFailures_leaf ha h (hpopped u hu) h1
      · exact absurd h1 (hnot w t).2
  | _ => trivial

/-- The main thread joins no more workers than there are. -/
theorem join_le (h : Run (ParallelStep a) (parallelInit a) tr s) {i : Nat} (hm : s.main = .join i) :
    i ≤ a.workers := by
  refine h.preserve (P := fun s : ParallelState => ∀ i, s.main = .join i → i ≤ a.workers) ?_
    (by simp [parallelInit]) i hm
  intro s e s' hi hs j hj
  cases e with
  | spawn =>
    obtain ⟨i, -, -, rfl⟩ := parallelStep_iff.mp hs
    simp at hj
  | mainLock =>
    obtain ⟨-, -, rfl⟩ := parallelStep_iff.mp hs
    simp at hj
  | mainBroadcast =>
    obtain ⟨-, rfl⟩ := parallelStep_iff.mp hs
    obtain rfl : 0 = j := by simpa using hj
    exact Nat.zero_le _
  | join =>
    obtain ⟨i, hlt, -, -, rfl⟩ := parallelStep_iff.mp hs
    obtain rfl : i + 1 = j := by simpa using hj
    exact hlt
  | _ =>
    rw [(frame_step hs).2 rfl] at hj
    exact hi j hj

/-- A run that cannot go on, with all workers gone, is at its return. -/
theorem returns_of_exited (h : Run (ParallelStep a) (parallelInit a) tr s)
    (hev : ∀ w t, .failed w t ∉ tr) (hend : ¬ Enabled a s)
    (hgone : ∀ w < a.workers, s.pc w = .exited) : s.main = .join a.workers := by
  have hl := lockInv_run h
  have hmu : s.mu = none := by
    by_contra hmu
    exact hend (enabled_of_held hl hev hmu)
  cases hm : s.main with
  | spawn i =>
    have hle := hl.created_le
    rw [hm] at hle
    rcases Nat.lt_or_eq_of_le hle with hi | hi
    · exact absurd ⟨.spawn, _, parallelStep_iff.mpr ⟨i, hi, hm, rfl⟩, by simp⟩ hend
    · obtain rfl : i = a.workers := hi
      exact absurd ⟨.mainLock, _, parallelStep_iff.mpr ⟨hm, hmu, rfl⟩, by simp⟩ hend
  | broadcast => exact absurd ⟨.mainBroadcast, _, parallelStep_iff.mpr ⟨hm, rfl⟩, by simp⟩ hend
  | join i =>
    rcases Nat.lt_or_eq_of_le (join_le h hm) with hi | rfl
    · exact absurd ⟨.join, _, parallelStep_iff.mpr ⟨i, hi, hm, hgone i hi, rfl⟩, by simp⟩ hend
    · rfl

/-- **When the executor returns.**  A run that cannot go on has returned if and only if no
`execute_task` has failed in it, no hash of a task that others of the subset depend on, and the
subset has no cycle. -/
theorem parallel_returns_iff {moves : Nat → Bool} {fuel : Nat} {manifest : Bytes}
    {targets : List Bytes} {subset : List TaskPtr} (maxWorkers : Int)
    (hn : ((parseManifest manifest).map Task.name).Nodup)
    (hc : collectNeededTasks moves fuel (parseManifest manifest) targets = .ok subset)
    (hne : subset ≠ []) {tr : List ParallelEvent} {s : ParallelState}
    (h : Run (ParallelStep ⟨parseManifest manifest, subset, workerCount maxWorkers⟩)
      (parallelInit ⟨parseManifest manifest, subset, workerCount maxWorkers⟩) tr s)
    (hend : ¬ Enabled ⟨parseManifest manifest, subset, workerCount maxWorkers⟩ s) :
    (∃ r, ParallelReturns ⟨parseManifest manifest, subset, workerCount maxWorkers⟩ s r) ↔
      (∀ e ∈ tr, e.Harmless ⟨parseManifest manifest, subset, workerCount maxWorkers⟩) ∧
        ∀ t ∈ subset,
          ¬ SubsetCycle ⟨parseManifest manifest, subset, workerCount maxWorkers⟩ t := by
  have ha := parallelArgs_ok (workerCount maxWorkers) hn hc
  constructor
  · rintro ⟨r, hr⟩
    exact harmless_of_returns ha (workerCount_pos maxWorkers) hne h hr
  · rintro ⟨hharm, hac⟩
    have hgone : ∀ w < workerCount maxWorkers, s.pc w = .exited := by
      intro w hw
      by_contra hpc
      exact hend (enabled_of_harmless ha hac h hharm hw hpc)
    have hm := returns_of_exited h (harmlessInv_run h hharm).event hend hgone
    refine ⟨if s.failed then 1 else 0, ?_⟩
    rw [ParallelReturns, if_neg hne]
    exact ⟨hm, rfl⟩

/-- The theorem at a run of one worker over two tasks, where the hash fails of the one that no
other depends on. -/
theorem parallel_returns_iff_chain :
    let manifest := ascii "task a \x7b\n\x7d\ntask b \x7b\n  deps = a\n\x7d\n"
    let a : ParallelArgs := ⟨parseManifest manifest, [0, 1], workerCount 1⟩
    let tr : List ParallelEvent := [.spawn, .mainLock, .mainBroadcast, .lock 0, .pop 0 0,
      .hash 0 0 true, .lookup 0 0 true, .lock 0, .done 0 0, .lock 0, .pop 0 1, .hash 0 1 false,
      .lock 0, .hashFailed 0 1, .lock 0, .exit 0, .join]
    collectNeededTasks (fun _ => false) 3 (parseManifest manifest) [ascii "b"] = .ok [0, 1] ∧
      ∃ s, Run (ParallelStep a) (parallelInit a) tr s ∧ ¬ Enabled a s ∧ ParallelReturns a s 1 ∧
        (∀ e ∈ tr, e.Harmless a) ∧ ∀ t ∈ [0, 1], ¬ SubsetCycle a t := by
  intro manifest a tr
  have hn : ((parseManifest manifest).map Task.name).Nodup := by decide
  have hc : collectNeededTasks (fun _ => false) 3 (parseManifest manifest) [ascii "b"]
      = .ok [0, 1] := by decide
  have hend : (tr.foldlM (parallelStep a) (parallelInit a)).map (fun s => (s.main, s.failed))
      = some (.join 1, true) := by decide +kernel
  obtain ⟨s, hs, hsf⟩ := Option.map_eq_some_iff.mp hend
  obtain ⟨hm, hf⟩ := Prod.mk.inj hsf
  have hrun := Run.of_foldlM hs
  have hret : ParallelReturns a s 1 := by
    rw [ParallelReturns, if_neg (show a.subset ≠ [] by simp [a]), hf]
    exact ⟨hm, rfl⟩
  have hstop : ¬ Enabled a s :=
    not_enabled_of_joined (lockInv_run hrun) (returnInv_run (parallelArgs_ok 1 hn hc) hrun) hm
  have h := (parallel_returns_iff 1 hn hc (by simp) hrun hstop).mp ⟨1, hret⟩
  exact ⟨hc, s, hrun, hstop, hret, h.1, h.2⟩

/-! ## 4. Statuses -/

/-- The ways a status goes on. -/
inductive StatusNext : TaskStatus → TaskStatus → Prop
  | start : StatusNext .pending .running
  | skip : StatusNext .running .skipped
  | succeed : StatusNext .running .success
  | fail : StatusNext .running .failed

/-- The worker is at one of the four parts of running the task. -/
def Pc.Runs (t : TaskPtr) (p : Pc) : Prop :=
  p = .hash t ∨ p = .lookup t ∨ p = .command t ∨ p = .record t

theorem StatusInv.runs (h : StatusInv tr s) (hr : (s.pc w).Runs t) : s.status t = .running := by
  rcases hr with hr | hr | hr | hr <;> exact h.expects hr (by simp) rfl

/-- **One step.** -/
theorem status_next (ha : a.Linked) (hr : Run (ParallelStep a) (parallelInit a) tr s)
    (hs : ParallelStep a s e s') (t : TaskPtr) :
    s'.status t = s.status t ∨ StatusNext (s.status t) (s'.status t) := by
  have hst := statusInv_of_linked ha hr
  obtain ⟨-, hrel⟩ := releases_run ha hr
  have hwrite : ∀ {w u pc st}, (s.pc w).Runs u → StatusNext .running st →
      ((s.goto w pc).setStatus u st).status t = s.status t ∨
        StatusNext (s.status t) (((s.goto w pc).setStatus u st).status t) := by
    intro w u pc st hu hst'
    rw [setStatus_status]
    by_cases htu : t = u
    · rw [if_pos htu, htu, hst.runs hu]
      exact .inr hst'
    · rw [if_neg htu]
      exact .inl rfl
  rw [parallelStep_iff] at hs
  cases e with
  | pop w u =>
    obtain ⟨rest, hready, -, rfl⟩ := hs
    dsimp only
    rw [setStatus_status]
    by_cases htu : t = u
    · -- the task was on the queue, and not taken off before
      have hnew : t ∉ popped tr := fun hp =>
        List.disjoint_of_nodup_append hrel.released.nodup hp (by rw [hready, htu]; simp)
      rw [if_pos htu, status_pending ha hr hnew]
      exact .inr .start
    · rw [if_neg htu]
      exact .inl rfl
  | hash v u ok =>
    cases ok with
    | true =>
      obtain ⟨-, rfl⟩ := hs
      exact .inl rfl
    | false =>
      obtain ⟨hpc, rfl⟩ := hs
      exact hwrite (.inl hpc) .fail
  | lookup v u ok =>
    cases ok with
    | true =>
      obtain ⟨hpc, rfl⟩ := hs
      exact hwrite (.inr (.inl hpc)) .skip
    | false =>
      obtain ⟨-, rfl⟩ := hs
      exact .inl rfl
  | command v u ok =>
    cases ok with
    | true =>
      obtain ⟨-, rfl⟩ := hs
      exact .inl rfl
    | false =>
      obtain ⟨hpc, rfl⟩ := hs
      exact hwrite (.inr (.inr (.inl hpc))) .fail
  | record v u ok =>
    cases ok with
    | true =>
      obtain ⟨hpc, rfl⟩ := hs
      exact hwrite (.inr (.inr (.inr hpc))) .succeed
    | false =>
      obtain ⟨hpc, rfl⟩ := hs
      exact hwrite (.inr (.inr (.inr hpc))) .fail
  | spawn =>
    obtain ⟨i, -, -, rfl⟩ := hs
    exact .inl rfl
  | join =>
    obtain ⟨i, -, -, -, rfl⟩ := hs
    exact .inl rfl
  | mainLock =>
    obtain ⟨-, -, rfl⟩ := hs
    exact .inl rfl
  | lock w =>
    obtain ⟨-, pc, -, rfl⟩ := hs
    exact .inl rfl
  | wait w | exit w | retry w =>
    obtain ⟨-, -, -, rfl⟩ := hs
    exact .inl rfl
  | done w u =>
    obtain ⟨-, pd, rd, rfl⟩ := ParallelEvent.Spec.done hs
    exact .inl rfl
  | mainBroadcast | hashFailed w u | failed w u | spurious w =>
    obtain ⟨-, rfl⟩ := hs
    exact .inl rfl

/-- A worker that is about to tell of a failed `execute_task`, or has told of it, holds a task
that failed. -/
theorem failed_mem_failures (h : Run (ParallelStep a) (parallelInit a) tr s) (w : Nat)
    (t : TaskPtr) (hf : .failed w t ∈ tr ∨ (s.pc w).InFailed t) : t ∈ failures tr := by
  induction h with
  | refl => simp [parallelInit, Pc.InFailed] at hf
  | @snoc tr s e s' hr hs ih =>
    have hold : t ∈ failures tr → t ∈ failures (tr ++ [e]) := fun h => failures_mono h e
    rcases hf with hf | hf
    · rcases List.mem_append.mp hf with hf | hf
      · exact hold (ih (.inl hf))
      · obtain rfl := List.mem_singleton.mp hf
        exact hold (ih (.inr (.inr (parallelStep_iff.mp hs).1)))
    · rcases pc_step hs w with h | ⟨-, h⟩ | h
      · rw [h] at hf
        exact hold (ih (.inr hf))
      · rw [h] at hf
        rcases hf with hf | hf <;> cases hf
      · rcases hf with hf | hf
        · rw [hf] at h
          generalize s.pc w = p at h
          cases h with
          | lock hp => cases p <;> cases hp
          | noCommand | noRecord =>
            rw [failures_append]
            exact List.mem_append_right _ (by simp [failures])
        · rw [hf] at h
          generalize hp' : s.pc w = p at h
          cases h with
          | lock hp =>
            cases p <;> cases hp
            exact hold (ih (.inr (.inl hp')))

/-- A task that was taken off the queue is being run, or has ended. -/
theorem runs_or_ended (ha : a.Linked) (h : Run (ParallelStep a) (parallelInit a) tr s)
    (ht : t ∈ popped tr) :
    (∃ w, (s.pc w).Runs t) ∨ (s.status t).Good ∨ s.status t = .failed := by
  have hst := statusInv_of_linked ha h
  have hi := returnInv_of_linked ha h
  have hfail : ∀ {t}, t ∈ failures tr → s.status t = .failed := fun hf => (hst.bad _ hf).1
  rcases (releases_run ha h).1.accounted t ht with hf | hf | ⟨w, hw⟩
  · exact .inr (.inl (hst.good t hf))
  · exact .inr (.inr (hfail (hi.gave t hf)))
  · have htells := hi.pc w
    have hheld := hst.held w t hw
    have hsame : ∀ {p : Pc} {u : TaskPtr}, s.pc w = p → p.task = some u → u = t := by
      intro p u hp hu
      rw [hp, hu] at hw
      exact Option.some.inj hw
    cases hpc : s.pc w with
    | hash u => exact .inl ⟨w, .inl (hsame hpc rfl ▸ hpc)⟩
    | lookup u => exact .inl ⟨w, .inr (.inl (hsame hpc rfl ▸ hpc))⟩
    | command u => exact .inl ⟨w, .inr (.inr (.inl (hsame hpc rfl ▸ hpc)))⟩
    | record u => exact .inl ⟨w, .inr (.inr (.inr (hsame hpc rfl ▸ hpc)))⟩
    | lockHashFailed u | hashFailed u =>
      obtain rfl := hsame hpc rfl
      rw [hpc] at htells
      exact .inr (.inr (hfail htells))
    | lockFailed u =>
      obtain rfl := hsame hpc rfl
      exact .inr (.inr (hfail (failed_mem_failures h w u (.inr (.inl hpc)))))
    | failed u =>
      obtain rfl := hsame hpc rfl
      exact .inr (.inr (hfail (failed_mem_failures h w u (.inr (.inr hpc)))))
    | lockDone u =>
      obtain rfl := hsame hpc rfl
      rw [hpc] at hheld
      rcases hheld with hgood | ⟨-, hmu⟩
      · exact .inr (.inl hgood)
      · -- at its second lock, after a failure
        rcases (lockInv_run h).owned w hmu with hcrit | ⟨v, hv, hf⟩
        · rw [hpc] at hcrit
          exact hcrit.elim
        · obtain rfl : u = v := by simpa [hpc] using hv
          exact .inr (.inr (hfail (failed_mem_failures h w u (.inl hf))))
    | done u =>
      obtain rfl := hsame hpc rfl
      rw [hpc] at hheld
      exact .inr (.inl (hheld.resolve_right fun hd => by simp at hd))
    | _ =>
      rw [hpc] at hw
      cases hw

theorem runs_task (h : (s.pc w).Runs t) : (s.pc w).task = some t := by
  rcases h with h | h | h | h <;> rw [h] <;> rfl

/-- **The life of a task.**  From any point of a run to any later one a status goes on as
`StatusNext` says; a task is pending as long as it was not taken off the queue, and running as
long as a worker runs it. -/
theorem parallel_status_lifecycle {moves : Nat → Bool} {fuel workers : Nat} {manifest : Bytes}
    {targets : List Bytes} {subset : List TaskPtr}
    (hc : collectNeededTasks moves fuel (parseManifest manifest) targets = .ok subset)
    {tr tr' : List ParallelEvent} {s s' : ParallelState}
    (h : Run (ParallelStep ⟨parseManifest manifest, subset, workers⟩)
      (parallelInit ⟨parseManifest manifest, subset, workers⟩) tr s)
    (h' : Run (ParallelStep ⟨parseManifest manifest, subset, workers⟩) s tr' s') (t : TaskPtr) :
    ReflTransGen StatusNext (s.status t) (s'.status t) ∧
      (s.status t = .pending ↔ t ∉ popped tr) ∧
      (s.status t = .running ↔ ∃! w, (s.pc w).Runs t) := by
  obtain ⟨hnd, -, hmem, -⟩ := collectNeededTasks_ok hc
  have ha : ParallelArgs.Linked ⟨parseManifest manifest, subset, workers⟩ :=
    ⟨parseManifest_wellLinked manifest, hnd, fun t ht => ((hmem t).mp ht).lt⟩
  have hst := statusInv_of_linked ha h
  have hend : ∀ {st : TaskStatus}, st.Good ∨ st = .failed → st ≠ .pending ∧ st ≠ .running := by
    rintro st ((rfl | rfl) | rfl) <;> decide
  refine ⟨?_, ⟨fun hp ht => ?_, status_pending ha h⟩, fun hr => ?_, fun ⟨_, hw, _⟩ => hst.runs hw⟩
  · induction h' with
    | refl => exact .refl
    | snoc hr hs ih =>
      rcases status_next ha (h.append hr) hs t with h1 | h1
      · rwa [h1]
      · exact ih.tail h1
  · rcases runs_or_ended ha h ht with ⟨w, hw⟩ | he
    · rw [hst.runs hw] at hp
      cases hp
    · exact (hend he).1 hp
  · have ht : t ∈ popped tr := by
      by_contra ht
      rw [status_pending ha h ht] at hr
      cases hr
    rcases runs_or_ended ha h ht with ⟨w, hw⟩ | he
    · refine ⟨w, hw, fun v hv => ?_⟩
      exact (releases_run ha h).1.unique v w t (runs_task hv) (runs_task hw)
    · exact absurd hr (hend he).2

/-- The theorem at a run of one worker that is given two tasks, before and after it takes the
second. -/
theorem parallel_status_lifecycle_chain :
    let manifest := ascii "task a \x7b\n\x7d\ntask b \x7b\n  deps = a\n\x7d\n"
    let a : ParallelArgs := ⟨parseManifest manifest, [0, 1], 1⟩
    let tr : List ParallelEvent := [.spawn, .mainLock, .mainBroadcast, .lock 0, .pop 0 0,
      .hash 0 0 true, .lookup 0 0 true, .lock 0, .done 0 0, .lock 0]
    let tr' : List ParallelEvent := [.pop 0 1, .hash 0 1 false]
    ∃ s s', Run (ParallelStep a) (parallelInit a) tr s ∧
      Run (ParallelStep a) s tr' s' ∧ s.status 1 = .pending ∧
        s'.status 1 = .failed ∧ ReflTransGen StatusNext (s.status 1) (s'.status 1) := by
  intro manifest a tr tr'
  have hc : collectNeededTasks (fun _ => false) 3 (parseManifest manifest) [ascii "b"]
      = .ok [0, 1] := by decide
  have hend : (tr.foldlM (parallelStep a) (parallelInit a)).map (fun s => s.status 1)
      = some .pending := by decide +kernel
  have hend' : ((tr ++ tr').foldlM (parallelStep a) (parallelInit a)).map (fun s => s.status 1)
      = some .failed := by decide +kernel
  obtain ⟨s, hs, hst⟩ := Option.map_eq_some_iff.mp hend
  obtain ⟨s', hs', hst'⟩ := Option.map_eq_some_iff.mp hend'
  rw [List.foldlM_append, hs] at hs'
  have hrun := Run.of_foldlM hs
  have hrun' := Run.of_foldlM hs'
  exact ⟨s, s', hrun, hrun', hst, hst', (parallel_status_lifecycle hc hrun hrun' 1).1⟩

end ReproVM
