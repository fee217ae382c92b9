/-
# Runs of the executor, statement by statement

The caller counts and pushes before there are workers, and frees the queue when there are none any
more; in between `Parallel` follows it as it follows the workers (`ThreadsRefine`).  So every run
has a run of `Parallel` beside it, and what holds of the cells and the mutexes at each step holds in
every run.
-/
import ReproVM.ExitStatus
import ReproVM.ThreadsRefine

namespace ReproVM

open Bytes (ascii)
open Lib (Run LinkedQueue)

variable {a : ParallelArgs} {s s' : Threads} {c : ParallelState} {tr : List ParallelEvent}
  {w : Nat} {t : TaskPtr}

/-! ## 1. The statements of the caller -/

/-- What the first `n` counts and the pushes for the first `m` tasks leave. -/
def counted (a : ParallelArgs) (n m : Nat) : Shared where
  pendingDeps j := if j < n then (parallelInit a).pendingDeps j else 0
  remaining := a.subset.length
  failed := false
  ready := (a.subset.take m).filter fun t => pendingCount a t = 0

/-- Before the first worker. -/
structure Counting (a : ParallelArgs) (s : Threads) (n m : Nat) : Prop where
  pc : ∀ v, s.pc v = .unborn
  mu : s.mu = none
  printMu : s.printMu = none
  status : ∀ t, s.status t = .pending
  holds : s.Holds (counted a n m)

/-- Behind the last join. -/
structure Draining (a : ParallelArgs) (s : Threads) (c : ParallelState) : Prop where
  pc : ∀ v, c.pc v = (s.pc v).abs
  main : c.main = .join a.workers
  mu : c.mu = s.mu
  status : s.status = c.status
  failed : s.failed = c.failed
  free : s.mu = none ∧ s.printMu = none
  gone : ∀ v, s.pc v = .exited ∨ s.pc v = .unborn

/-- While there are workers. -/
def CallerPc.Running : CallerPc → Prop
  | .spawn _ | .broadcast | .unlock | .join _ => True
  | _ => False

/-- The two states at every place of the caller. -/
inductive StaysWith (a : ParallelArgs) (s : Threads) (c : ParallelState) : Prop
  | count {i : Nat} (hm : s.main = .count i) (hc : c = parallelInit a) (h : Counting a s i i)
  | push {i : Nat} {t : TaskPtr} (hm : s.main = .push i) (hc : c = parallelInit a)
    (ht : a.subset[i]? = some t) (h0 : pendingCount a t = 0) (h : Counting a s (i + 1) i)
  | run (hm : s.main.Running) (h : InStep a s c)
  | drain {cur : Option Nat} {n : Nat} (hm : s.main = .drain cur) (h : Draining a s c)
    (hq : LinkedQueue.Live s.queue.mem cur n)
  | returned (hm : s.main = .returned (if c.failed then 1 else 0)) (h : Draining a s c)
    (hq : s.queue.mem = fun _ => none)

theorem counted_all {n : Nat} (hn : a.subset.length ≤ n) :
    counted a n n = (parallelInit a).shared := by
  refine Shared.mk.injEq .. |>.mpr ⟨?_, rfl, rfl, ?_⟩
  · funext j
    split
    · rfl
    · rename_i hj
      have hnone : a.subset[j]? = none := List.getElem?_eq_none (by omega)
      simp [parallelInit, hnone]
  · rw [List.take_of_length_le hn]
    rfl

/-- One more count. -/
theorem counted_count {i : Nat} (ht : a.subset[i]? = some t) :
    Function.update (counted a i i).pendingDeps i (pendingCount a t : Int)
      = (counted a (i + 1) i).pendingDeps := by
  funext j
  rw [Function.update_apply]
  simp only [counted]
  split
  · rename_i hj
    subst hj
    rw [if_pos (Nat.lt_succ_self j)]
    simp [parallelInit, ht]
  · rename_i hj
    exact if_congr (by omega) rfl rfl

theorem counted_ready {i : Nat} (ht : a.subset[i]? = some t) (n m k : Nat) :
    (counted a n (i + 1)).ready =
      if pendingCount a t = 0 then (counted a m i).ready ++ [t] else (counted a k i).ready := by
  simp only [counted, List.take_add_one, ht, Option.toList_some, List.filter_append]
  split <;> simp [*]

theorem staysWith_init : StaysWith a (threadsInit a) (parallelInit a) := by
  refine .count rfl rfl ⟨fun _ => rfl, rfl, rfl, fun _ => rfl, ⟨?_, rfl, rfl, ?_⟩⟩
  · funext j
    simp [threadsInit, counted]
  · exact LinkedQueue.rep_empty

section Caller

variable {p : Nat}

theorem staysWith_count {i : Nat} (hm : s.main = .count i) (hc : c = parallelInit a)
    (h : Counting a s i i) :
    (callerStep a s p).Ends fun s' => ∃ l c', Run (ParallelStep a) c l c' ∧ StaysWith a s' c' := by
  rw [callerStep, hm]
  dsimp only
  cases ht : a.subset[i]? with
  | none =>
    have hh := h.holds
    rw [counted_all (List.getElem?_eq_none_iff.mp ht)] at hh
    exact ⟨[], c, .refl, .run trivial (.init hc h.pc rfl h.mu h.printMu h.status
      (hc ▸ hh.congr rfl rfl rfl rfl))⟩
  | some t =>
    have hpd : Function.update s.pendingDeps i (pendingCount a t : Int)
        = (counted a (i + 1) i).pendingDeps := by
      rw [h.holds.pendingDeps, counted_count ht]
    refine ⟨[], c, .refl, ?_⟩
    split
    · rename_i h0
      exact .push rfl hc ht h0
        ⟨h.pc, h.mu, h.printMu, h.status, hpd, h.holds.remaining, h.holds.failed, h.holds.queue⟩
    · rename_i h0
      refine .count rfl hc
        ⟨h.pc, h.mu, h.printMu, h.status, hpd, h.holds.remaining, h.holds.failed, ?_⟩
      rw [counted_ready ht _ i i, if_neg h0]
      exact h.holds.queue

theorem staysWith_push {i : Nat} (hm : s.main = .push i) (hc : c = parallelInit a)
    (ht : a.subset[i]? = some t) (h0 : pendingCount a t = 0) (h : Counting a s (i + 1) i) :
    (callerStep a s p).Ends fun s' => ∃ l c', Run (ParallelStep a) c l c' ∧ StaysWith a s' c' := by
  rw [callerStep, hm]
  dsimp only
  rw [ht]
  dsimp only
  split
  · trivial
  · rename_i hfree
    obtain ⟨queue, hpush, hrep⟩ := h.holds.queue.push (not_not.mp hfree) t
    rw [hpush]
    refine ⟨[], c, .refl, .count rfl hc ⟨h.pc, h.mu, h.printMu, h.status, h.holds.pendingDeps,
      h.holds.remaining, h.holds.failed, ?_⟩⟩
    rw [counted_ready ht _ (i + 1) i, if_pos h0]
    exact hrep

/-- The caller while there are workers. -/
theorem staysWith_run (hr : Run (ParallelStep a) (parallelInit a) tr c) (hm : s.main.Running)
    (h : InStep a s c) (hj : ∀ i, c.main = .join i → ∀ v < i, c.pc v = .exited) :
    (callerStep a s p).Ends fun s' => ∃ l c', Run (ParallelStep a) c l c' ∧ StaysWith a s' c' := by
  have hl := lockInv_run hr
  have hcm := h.main
  rw [callerStep]
  cases hm' : s.main with
  | count | push | drain | returned =>
    rw [hm'] at hm
    exact hm.elim
  | spawn i =>
    rw [hm'] at hcm
    dsimp only
    split
    · rename_i hi
      have hun : c.pc i = .unborn := (hl.unborn i).mpr (by rw [hcm]; exact le_rfl)
      have hun' : s.pc i = .unborn := abs_eq_unborn.mp ((h.pc i).symm.trans hun)
      refine ⟨[.spawn], { c.goto i .top with main := .spawn (i + 1) },
        .single (parallelStep_iff.mpr ⟨i, hi, hcm, rfl⟩), .run trivial ?_⟩
      exact h.move (w := i) (q := .top) (goto_abs h.pc i .top) rfl rfl (by simp) rfl rfl rfl
        (fun _ hd => hd.congr rfl rfl rfl rfl) rfl (h.status_goto (by simp [hun']))
        (by rw [hun']; exact id) id (by simp)
    split
    · rename_i hi hmu
      have hle := hl.created_le
      have hi' : i = a.workers := by
        rw [hcm] at hle
        exact le_antisymm hle (not_lt.mp hi)
      refine ⟨[.mainLock], { c.setMu (some .main) with main := .broadcast },
        .single (parallelStep_iff.mpr ⟨hi' ▸ hcm, h.mu.trans hmu, rfl⟩), .run trivial ?_⟩
      refine ⟨h.pc, rfl, rfl, h.status, ?_, fun v => InStep.guard_congr (h.guard v) rfl id,
        by simp, h.print⟩
      have hh := h.holds
      rw [Threads.expected, hmu] at hh
      exact hh.congr rfl rfl rfl rfl
    · trivial
  | broadcast =>
    rw [hm'] at hcm
    have hborn : ∀ v, c.pc v = .waiting → v < a.workers := fun v hv => hl.lt_workers (by simp [hv])
    obtain ⟨l, hrun⟩ := run_broadcast hborn
    have hb := h.broadcast
    refine ⟨l, c.broadcast, hrun, .run trivial ⟨hb.pc, hcm, hb.mu, hb.status,
      hb.holds.congr rfl rfl rfl rfl, ?_, ?_, hb.print⟩⟩
    · exact fun v => InStep.guard_congr (hb.guard v) rfl id
    · intro _ v
      change s.broadcast.pc v ≠ _
      rw [Threads.broadcast_pc]
      split
      · simp
      · assumption
  | unlock =>
    rw [hm'] at hcm
    have hmu := hl.main_mu.mpr hcm
    have hout : ∀ v, ¬ (s.pc v).abs.critical := by
      intro v hv
      rw [← h.pc] at hv
      have := (hl.owner v hv).symm.trans hmu
      cases this
    have hw := h.woken hm'
    refine ⟨[.mainBroadcast], { c.broadcast.setMu none with main := .join 0 },
      .single (parallelStep_iff.mpr ⟨hcm, rfl⟩), .run trivial ⟨fun v => ?_, rfl, rfl, h.status, ?_,
        fun v => guard_plain (hout v), by simp, h.print⟩⟩
    · change c.broadcast.pc v = _
      rw [ReproVM.broadcast_pc, h.pc, if_neg fun hv => hw v (abs_eq_waiting.mp hv)]
    · have hh := h.holds
      rw [Threads.expected, ← h.mu, hmu] at hh
      exact hh.congr rfl rfl rfl rfl
  | join i =>
    rw [hm'] at hcm
    dsimp only
    split
    · rename_i hi
      split
      · rename_i hx
        have hx' : c.pc i = .exited := (h.pc i).trans (abs_eq_exited.mpr hx)
        refine ⟨[.join], { c with main := .join (i + 1) },
          .single (parallelStep_iff.mpr ⟨i, hi, hcm, hx', rfl⟩), .run trivial ?_⟩
        exact ⟨h.pc, rfl, h.mu, h.status, h.holds.congr rfl rfl rfl rfl,
          fun v => InStep.guard_congr (h.guard v) rfl id, by simp, h.print⟩
      · trivial
    · rename_i hi
      have hgone : ∀ v, s.pc v = .exited ∨ s.pc v = .unborn := by
        intro v
        by_cases hv : v < a.workers
        · exact .inl (abs_eq_exited.mp ((h.pc v).symm.trans (hj i hcm v (by omega))))
        · refine .inr (abs_eq_unborn.mp ((h.pc v).symm.trans ((hl.unborn v).mpr ?_)))
          rw [hcm]
          exact not_lt.mp hv
      have hi' : i = a.workers := le_antisymm (join_le hr hcm) (not_lt.mp hi)
      have hplace : ∀ {v q}, s.pc v = q → q = .exited ∨ q = .unborn := fun hv => hv ▸ hgone _
      have hmu : c.mu = none := by
        rcases hmu : c.mu with _ | _ | v
        · rfl
        · have := hl.main_mu.mp hmu
          rw [hcm] at this
          cases this
        · exfalso
          rcases hl.owned v hmu with hv | ⟨t, hv, -⟩ <;> rw [h.pc] at hv <;>
            rcases hgone v with hg | hg <;> rw [hg] at hv
          · exact hv
          · exact hv
          · cases hv
          · cases hv
      have hh : s.Holds c.shared := by
        have := h.holds
        rwa [Threads.expected, ← h.mu, hmu] at this
      refine ⟨[], c, .refl, .drain rfl
        ⟨h.pc, hi' ▸ hcm, h.mu, ?_, hh.failed, ⟨h.mu ▸ hmu, ?_⟩, hgone⟩ hh.queue.live⟩
      · funext t
        exact h.status t fun v hv => by simpa using hplace hv
      · rw [Option.eq_none_iff_forall_ne_some]
        intro th hth
        obtain ⟨v, t, -, hv⟩ := (h.print th).mp hth
        simpa using hplace hv

/-- The loop that frees what is left of the queue. -/
theorem staysWith_drain {cur : Option Nat} {n : Nat} (hm : s.main = .drain cur) (h : Draining a s c)
    (hq : LinkedQueue.Live s.queue.mem cur n) :
    (callerStep a s p).Ends fun s' => ∃ l c', Run (ParallelStep a) c l c' ∧ StaysWith a s' c' := by
  rw [callerStep, hm]
  cases cur with
  | none =>
    refine ⟨[], c, .refl, .returned ?_ ⟨h.pc, h.main, h.mu, h.status, h.failed, h.free, h.gone⟩
      hq.done⟩
    dsimp only
    rw [h.failed]
  | some cur =>
    obtain ⟨next, mem, m, hfree, hlive, -⟩ := hq.free
    dsimp only
    rw [hfree]
    exact ⟨[], c, .refl, .drain rfl ⟨h.pc, h.main, h.mu, h.status, h.failed, h.free, h.gone⟩ hlive⟩

end Caller

/-! ## 2. Runs -/

/-- A worker that is not there, or not any more, does nothing. -/
theorem workerStep_ends {P : Threads → Prop} {ok : Bool} {p : Nat}
    (h : s.pc w = .exited ∨ s.pc w = .unborn) : (workerStep a s w ok p).Ends P := by
  rw [workerStep]
  rcases h with h | h <;> rw [h] <;> trivial

/-- **A statement of any thread.** -/
theorem staysWith_step (ha : a.Linked) (hr : Run (ParallelStep a) (parallelInit a) tr c)
    (h : StaysWith a s c) (e : ThreadsEvent) :
    (threadsStep a s e).Ends fun s' => ∃ l c', Run (ParallelStep a) c l c' ∧ StaysWith a s' c' := by
  have hj : ∀ i, c.main = .join i → ∀ v < i, c.pc v = .exited :=
    Run.inv (I := fun _ c => ∀ i, c.main = .join i → ∀ v < i, c.pc v = .exited)
      (fun i hi => by simp [parallelInit] at hi) (fun _ _ _ _ _ hi hs => joined_step hi hs) hr
  have hidle : (∀ v, s.pc v = .exited ∨ s.pc v = .unborn) → (∀ p, e ≠ .caller p) →
      (threadsStep a s e).Ends fun s' => ∃ l c', Run (ParallelStep a) c l c' ∧ StaysWith a s' c' := by
    intro hv he
    cases e with
    | caller p => exact absurd rfl (he p)
    | worker w ok p => exact workerStep_ends (hv w)
    | spurious w =>
      rw [threadsStep, if_neg]
      · trivial
      · rcases hv w with h | h <;> simp [h]
  cases h with
  | count hm hc h =>
    cases e with
    | caller p => exact staysWith_count hm hc h
    | worker | spurious => exact hidle (fun v => .inr (h.pc v)) (by simp)
  | push hm hc ht h0 h =>
    cases e with
    | caller p => exact staysWith_push hm hc ht h0 h
    | worker | spurious => exact hidle (fun v => .inr (h.pc v)) (by simp)
  | drain hm h hq =>
    cases e with
    | caller p => exact staysWith_drain hm h hq
    | worker | spurious => exact hidle h.gone (by simp)
  | returned hm h hq =>
    cases e with
    | caller p =>
      rw [threadsStep, callerStep, hm]
      trivial
    | worker | spurious => exact hidle h.gone (by simp)
  | run hm h =>
    cases e with
    | caller p => exact staysWith_run hr hm h hj
    | worker w ok p =>
      have hw : (workerStep a s w ok p).Ends (Followed a s c) := followed_worker h ha hr
      rw [threadsStep]
      cases hs : workerStep a s w ok p with
      | blocked => trivial
      | fault => rwa [hs] at hw
      | next s' =>
        rw [hs] at hw
        obtain ⟨hm', l, c', hrun, hmat⟩ := hw
        exact ⟨l, c', hrun, .run (hm' ▸ hm) hmat⟩
    | spurious w =>
      rw [threadsStep]
      split
      · rename_i hpc
        have hc : c.pc w = .waiting := (h.pc w).trans (abs_eq_waiting.mpr hpc)
        obtain ⟨-, l, c', hrun, hmat⟩ : Followed a s c (s.goto w .woken) :=
          followed_part h (e := .spurious w) ⟨hc, rfl⟩ hpc (by simp) id id (by simp)
        exact ⟨l, c', hrun, .run hm hmat⟩
      · trivial

theorem staysWith_run_threads (ha : a.Linked) {evs : List ThreadsEvent}
    (h : Run (ThreadsStep a) (threadsInit a) evs s) :
    ∃ tr c, Run (ParallelStep a) (parallelInit a) tr c ∧ StaysWith a s c := by
  obtain ⟨l, c, hrun, hf, -⟩ := Run.simulate
    (R := fun _ s c => StaysWith a s c ∧ ∃ tr, Run (ParallelStep a) (parallelInit a) tr c)
    ⟨staysWith_init, [], .refl⟩ (fun _ s e s' c _ hsc hs => by
      obtain ⟨hf, tr, hr⟩ := hsc
      have := staysWith_step ha hr hf e
      rw [show threadsStep a s e = .next s' from hs] at this
      obtain ⟨l, c', hrun, hf'⟩ := this
      exact ⟨l, c', hrun, hf', _, hr.append hrun⟩) h
  exact ⟨l, c, hrun, hf⟩

/-! ## 3. Results -/

/-- The places and the statuses of the two states. -/
theorem StaysWith.agree (h : StaysWith a s c) : (∀ v, c.pc v = (s.pc v).abs) ∧ c.main = s.main.abs a ∧
    c.mu = s.mu ∧ ∀ t, (∀ v, s.pc v ≠ .start t) → s.status t = c.status t := by
  have hcounting : ∀ {n m}, c = parallelInit a → Counting a s n m →
      (∀ v, c.pc v = (s.pc v).abs) ∧ c.mu = s.mu ∧ ∀ t, s.status t = c.status t := by
    rintro n m rfl h
    refine ⟨fun v => ?_, h.mu.symm, h.status⟩
    rw [h.pc]
    rfl
  cases h with
  | count hm hc h | push hm hc _ _ h =>
    obtain ⟨hpc, hmu, hst⟩ := hcounting hc h
    exact ⟨hpc, by rw [hm, hc]; rfl, hmu, fun t _ => hst t⟩
  | run hm h => exact ⟨h.pc, h.main, h.mu, h.status⟩
  | drain hm h | returned hm h =>
    exact ⟨h.pc, by rw [hm, h.main]; rfl, h.mu, fun t _ => by rw [h.status]⟩

/-- Between the sections the context holds what `Parallel` has. -/
theorem StaysWith.holds (h : StaysWith a s c) (hm : s.main.Running) (hmu : s.mu = none) :
    s.Holds c.shared := by
  cases h with
  | count hm' | push hm' | drain hm' | returned hm' =>
    rw [hm'] at hm
    exact hm.elim
  | run _ h =>
    have := h.holds
    rwa [Threads.expected, hmu] at this

/-- A run as a function of its labels. -/
def threadsRun (a : ParallelArgs) (s : Threads) (e : ThreadsEvent) : Option Threads :=
  match threadsStep a s e with
  | .next s' => some s'
  | _ => none

theorem run_of_threadsRun {evs : List ThreadsEvent} (h : evs.foldlM (threadsRun a) s = some s') :
    Run (ThreadsStep a) s evs s' := by
  refine (Run.of_foldlM h).imp fun s e s' hs => ?_
  rw [threadsRun] at hs
  split at hs
  · rename_i h
    rw [ThreadsStep, h, Option.some.inj hs]
  · cases hs

/-- One worker, two tasks, and the second waits for the first: every part of running them ends
well, and `malloc` gives the same address for the cells of both. -/
def chainManifest : Bytes := ascii "task a \x7b\n\x7d\ntask b \x7b\n  deps = a\n\x7d\n"

def chainThreads : ParallelArgs := ⟨parseManifest chainManifest, [0, 1], workerCount 1⟩

def chainEvents : List ThreadsEvent :=
  List.replicate 8 (ThreadsEvent.caller 7) ++ List.replicate 32 (ThreadsEvent.worker 0 true 7) ++
    List.replicate 3 (ThreadsEvent.caller 7)

theorem chain_collected :
    collectNeededTasks (fun _ => false) 3 (parseManifest chainManifest) [ascii "b"]
      = .ok [0, 1] := by
  decide

theorem chain_run : ∃ s, Run (ThreadsStep chainThreads) (threadsInit chainThreads) chainEvents s ∧
    s.main = .returned 0 := by
  have hend : (chainEvents.foldlM (threadsRun chainThreads) (threadsInit chainThreads)).map
      (fun s => s.main) = some (.returned 0) := by decide +kernel
  obtain ⟨s, hs, hm⟩ := Option.map_eq_some_iff.mp hend
  exact ⟨s, run_of_threadsRun hs, hm⟩

/-- **Memory and locks.**  In no run does a thread follow a pointer to what is not a live cell, no
two workers are in a section together, and nobody waits for `print_mu`.  Until the call frees the
queue its live cells are those of a list from its head to its tail, and when it has returned none is
live and both mutexes are free. -/
theorem threads_safe {moves : Nat → Bool} {fuel : Nat} {manifest : Bytes} {targets : List Bytes}
    {subset : List TaskPtr} (maxWorkers : Int)
    (hc : collectNeededTasks moves fuel (parseManifest manifest) targets = .ok subset)
    {evs : List ThreadsEvent} {s : Threads}
    (h : Run (ThreadsStep ⟨parseManifest manifest, subset, workerCount maxWorkers⟩)
      (threadsInit ⟨parseManifest manifest, subset, workerCount maxWorkers⟩) evs s) :
    (∀ e, threadsStep ⟨parseManifest manifest, subset, workerCount maxWorkers⟩ s e ≠ .fault) ∧
      (∀ v w, (s.pc v).abs.critical → (s.pc w).abs.critical → v = w) ∧
      (∀ w t, s.pc w = .lockPrint t → s.printMu = none) ∧
      ((∃ xs, s.queue.Rep xs) ∨ (∃ cur, s.main = .drain cur) ∨ ∃ r, s.main = .returned r) ∧
      ∀ r, s.main = .returned r → (∀ p, s.queue.mem p = none) ∧ s.mu = none ∧ s.printMu = none ∧
        ∀ w, s.pc w = .exited ∨ s.pc w = .unborn := by
  have ha := linked_of_collect (workerCount maxWorkers) hc
  obtain ⟨tr, c, hrun, hf⟩ := staysWith_run_threads ha h
  have hl := lockInv_run hrun
  refine ⟨fun e he => ?_, fun v w hv hw => ?_, fun w t hw => ?_, ?_, fun r hr => ?_⟩
  · have := staysWith_step ha hrun hf e
    rwa [he] at this
  · rw [← hf.agree.1] at hv hw
    simpa using (hl.owner v hv).symm.trans (hl.owner w hw)
  · cases hf with
    | count _ _ h | push _ _ _ _ h => exact h.printMu
    | run _ h => exact printMu_eq_none h hl hw trivial (by simp)
    | drain _ h | returned _ h => exact h.free.2
  · cases hf with
    | count _ _ h | push _ _ _ _ h => exact .inl ⟨_, h.holds.queue⟩
    | run _ h => exact .inl ⟨_, h.holds.queue⟩
    | drain hm => exact .inr (.inl ⟨_, hm⟩)
    | returned hm => exact .inr (.inr ⟨_, hm⟩)
  · cases hf with
    | count hm | push hm | drain hm =>
      rw [hm] at hr
      cases hr
    | run hm =>
      rw [hr] at hm
      exact hm.elim
    | returned hm h hq => exact ⟨fun p => by rw [hq], h.free.1, h.free.2, h.gone⟩

/-- The theorem at the call above. -/
theorem threads_safe_chain :
    ∃ s, Run (ThreadsStep chainThreads) (threadsInit chainThreads) chainEvents s ∧
      (∀ e, threadsStep chainThreads s e ≠ .fault) ∧ (∀ p, s.queue.mem p = none) ∧
        s.mu = none ∧ s.printMu = none := by
  obtain ⟨s, hs, hm⟩ := chain_run
  obtain ⟨hf, -, -, -, hret⟩ := threads_safe 1 chain_collected hs
  obtain ⟨hmem, hmu, hp, -⟩ := hret 0 hm
  exact ⟨s, hs, hf, hmem, hmu, hp⟩

end ReproVM
