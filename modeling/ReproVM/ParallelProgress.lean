/-
# Where the parallel executor hangs, and where not

Two of the three ways to fail hang it.  After a failed `execute_task` the worker takes `mu` a
second time without an unlock in between; and a task whose inputs cannot be hashed lowers
`remaining` but never releases its dependents, which then stay in the count for ever.  In a run
that meets neither, some step is always enabled until every worker has exited: a worker that
waits has somebody to wake it, because what is left of an acyclic subset has a task on which
nothing is pending.
-/
import ReproVM.Lib.Digraph
import ReproVM.ParallelSafety

namespace ReproVM

open Bytes (ascii)
open Lib (Run)
open Relation

variable {a : ParallelArgs} {s s' : ParallelState} {e : ParallelEvent} {tr : List ParallelEvent}

/-! ## 1. Waiting -/

/-- A worker waits only while the queue is empty and tasks remain. -/
def WaitInv (s : ParallelState) : Prop :=
  ∀ w, s.pc w = .waiting → s.ready = [] ∧ 0 < s.remaining

theorem WaitInv.goto (h : WaitInv s) {w : Nat} {pc : Pc} (hpc : pc ≠ .waiting)
    (hs : s'.pc = (s.goto w pc).pc) (hr : s'.ready = s.ready) (hrem : s'.remaining = s.remaining) :
    WaitInv s' := by
  intro v hv
  rw [hs, goto_pc] at hv
  rw [hr, hrem]
  split at hv
  · exact absurd hv hpc
  · exact h v hv

theorem waitInv_of_none (h : ∀ v, s'.pc v ≠ .waiting) : WaitInv s' := fun v hv => absurd hv (h v)

theorem broadcast_ne_waiting (s : ParallelState) (v : Nat) : s.broadcast.pc v ≠ .waiting := by
  rw [broadcast_pc]
  split
  · simp
  · assumption

theorem WaitInv.step (h : WaitInv s) (hs : ParallelStep a s e s') : WaitInv s' := by
  rw [parallelStep_iff] at hs
  cases e with
  | spawn =>
    obtain ⟨i, -, -, rfl⟩ := hs
    exact h.goto (by simp) rfl rfl rfl
  | mainLock =>
    obtain ⟨-, -, rfl⟩ := hs
    exact h
  | mainBroadcast =>
    obtain ⟨-, rfl⟩ := hs
    exact waitInv_of_none (broadcast_ne_waiting s)
  | join =>
    obtain ⟨i, -, -, -, rfl⟩ := hs
    exact h
  | lock w =>
    obtain ⟨-, pc, hpc, rfl⟩ := hs
    refine h.goto (w := w) ?_ rfl rfl rfl
    rintro rfl
    exact Pc.critical_of_locked hpc
  | wait w =>
    obtain ⟨-, hr, hrem, rfl⟩ := hs
    exact fun v _ => ⟨hr, hrem⟩
  | exit w =>
    obtain ⟨-, -, -, rfl⟩ := hs
    exact h.goto (w := w) (by simp) rfl rfl rfl
  | retry w =>
    obtain ⟨-, -, -, rfl⟩ := hs
    exact h.goto (w := w) (by simp) rfl rfl rfl
  | pop w t =>
    obtain ⟨rest, hr, hpc, rfl⟩ := hs
    -- nobody waits while the queue has a task
    refine waitInv_of_none fun v hv => ?_
    dsimp only at hv
    rw [setStatus_pc, setMu_pc, goto_pc] at hv
    split at hv
    · exact absurd hv (by simp)
    · exact absurd (hr.symm.trans (h v hv).1) (by simp)
  | hash w t ok =>
    cases ok <;> obtain ⟨-, rfl⟩ := hs <;> exact h.goto (w := w) (by simp) rfl rfl rfl
  | lookup w t hit =>
    cases hit <;> obtain ⟨-, rfl⟩ := hs <;> exact h.goto (w := w) (by simp) rfl rfl rfl
  | command w t ok =>
    cases ok <;> obtain ⟨-, rfl⟩ := hs <;> exact h.goto (w := w) (by simp) rfl rfl rfl
  | record w t ok =>
    cases ok <;> obtain ⟨-, rfl⟩ := hs <;> exact h.goto (w := w) (by simp) rfl rfl rfl
  | hashFailed w t =>
    obtain ⟨-, rfl⟩ := hs
    exact waitInv_of_none (broadcast_ne_waiting _)
  | failed w t =>
    obtain ⟨-, rfl⟩ := hs
    exact h.goto (w := w) (by simp) rfl rfl rfl
  | done w t =>
    obtain ⟨-, pd, rd, rfl⟩ := ParallelEvent.Spec.done hs
    exact waitInv_of_none (broadcast_ne_waiting _)
  | spurious w =>
    obtain ⟨-, rfl⟩ := hs
    exact h.goto (w := w) (by simp) rfl rfl rfl

theorem waitInv_run (h : Run (ParallelStep a) (parallelInit a) tr s) : WaitInv s :=
  h.preserve (fun _ _ _ hi hs => hi.step hs) (waitInv_of_none fun _ => by simp [parallelInit])

/-! ## 2. Runs without the two failures that hang -/

/-- The step is not a failed `execute_task`, and not a failed hash of a task that others wait
for. -/
def ParallelEvent.Harmless (a : ParallelArgs) : ParallelEvent → Prop
  | .command _ _ false | .record _ _ false => False
  | .hash _ t false => ∀ u ∈ a.subset, ¬ DependsOn a.list u t
  | _ => True

/-- Where a worker can stand in such a run. -/
def Pc.Harmless (a : ParallelArgs) : Pc → Prop
  | .lockFailed _ | .failed _ => False
  | .lockHashFailed t | .hashFailed t => ∀ u ∈ a.subset, ¬ DependsOn a.list u t
  | _ => True

/-- What holds in such a run. -/
structure HarmlessInv (a : ParallelArgs) (tr : List ParallelEvent) (s : ParallelState) : Prop where
  pc : ∀ w, (s.pc w).Harmless a
  event : ∀ w t, .failed w t ∉ tr
  leaf : ∀ t ∈ hashFailures tr, ∀ u ∈ a.subset, ¬ DependsOn a.list u t

theorem harmless_pc_step (h : ∀ w, (s.pc w).Harmless a) (he : e.Harmless a)
    (hs : ParallelStep a s e s') (w : Nat) : (s'.pc w).Harmless a := by
  have hw := h w
  rcases pc_step hs w with h1 | ⟨-, h1⟩ | h1
  · rwa [h1]
  · rw [h1]
    trivial
  · generalize s.pc w = p, s'.pc w = q at h1 hw ⊢
    cases h1 with
    | lock hpc => cases p <;> simp_all [Pc.locked] <;> subst hpc <;> trivial
    | noHash w t => exact he
    | noCommand w t | noRecord w t => exact he.elim
    | _ => trivial

theorem HarmlessInv.step (h : HarmlessInv a tr s) (he : e.Harmless a)
    (hs : ParallelStep a s e s') : HarmlessInv a (tr ++ [e]) s' where
  pc := harmless_pc_step h.pc he hs
  event w t ht := by
    rw [List.mem_append, List.mem_singleton] at ht
    rcases ht with ht | rfl
    · exact h.event w t ht
    · have hw := h.pc w
      rw [(parallelStep_iff.mp hs).1] at hw
      exact hw
  leaf t ht := by
    rw [hashFailures_append, List.mem_append] at ht
    rcases ht with ht | ht
    · exact h.leaf t ht
    · cases e with
      | hashFailed w u =>
        obtain rfl : t = u := by simpa [hashFailures] using ht
        have hw := h.pc w
        rw [(parallelStep_iff.mp hs).1] at hw
        exact hw
      | _ => simp [hashFailures] at ht

theorem harmlessInv_run (h : Run (ParallelStep a) (parallelInit a) tr s)
    (htr : ∀ e ∈ tr, e.Harmless a) : HarmlessInv a tr s := by
  induction h with
  | refl => exact ⟨fun _ => trivial, fun _ _ => by simp, fun t ht => by simp [hashFailures] at ht⟩
  | snoc _ hs ih =>
    exact (ih fun e he => htr e (List.mem_append_left _ he)).step (htr _ (by simp)) hs

/-! ## 3. Who can move -/

/-- A worker in a critical section can leave it. -/
theorem enabled_of_critical {w : Nat} (h : (s.pc w).critical) : Enabled a s := by
  cases hpc : s.pc w with
  | look =>
    cases hr : s.ready with
    | nil =>
      rcases lt_trichotomy s.remaining 0 with hlt | heq | hgt
      · exact ⟨.retry w, _, parallelStep_iff.mpr ⟨hpc, hr, hlt, rfl⟩, by simp⟩
      · exact ⟨.exit w, _, parallelStep_iff.mpr ⟨hpc, hr, heq, rfl⟩, by simp⟩
      · exact ⟨.wait w, _, parallelStep_iff.mpr ⟨hpc, hr, hgt, rfl⟩, by simp⟩
    | cons t rest => exact ⟨.pop w t, _, parallelStep_iff.mpr ⟨rest, hr, hpc, rfl⟩, by simp⟩
  | hashFailed t => exact ⟨.hashFailed w t, _, parallelStep_iff.mpr ⟨hpc, rfl⟩, by simp⟩
  | failed t => exact ⟨.failed w t, _, parallelStep_iff.mpr ⟨hpc, rfl⟩, by simp⟩
  | done t => exact ⟨.done w t, _, parallelStep_iff.mpr ⟨hpc, rfl⟩, by simp⟩
  | _ =>
    rw [hpc] at h
    exact h.elim

/-- While `mu` is free, a worker that is not created, waiting or gone can move. -/
theorem enabled_of_free (hmu : s.mu = none) {w : Nat} (h : s.pc w ≠ .unborn ∧ s.pc w ≠ .waiting ∧
    s.pc w ≠ .exited) : Enabled a s := by
  have hlock : ∀ pc, (s.pc w).locked = some pc → Enabled a s := fun pc hpc =>
    ⟨.lock w, _, parallelStep_iff.mpr ⟨hmu, pc, hpc, rfl⟩, by simp⟩
  cases hpc : s.pc w with
  | unborn => exact absurd hpc h.1
  | waiting => exact absurd hpc h.2.1
  | exited => exact absurd hpc h.2.2
  | top => exact hlock .look (by rw [hpc]; rfl)
  | woken => exact hlock .look (by rw [hpc]; rfl)
  | lockHashFailed t => exact hlock (.hashFailed t) (by rw [hpc]; rfl)
  | lockFailed t => exact hlock (.failed t) (by rw [hpc]; rfl)
  | lockDone t => exact hlock (.done t) (by rw [hpc]; rfl)
  | hash t => exact ⟨.hash w t true, _, parallelStep_iff.mpr ⟨hpc, rfl⟩, by simp⟩
  | lookup t => exact ⟨.lookup w t true, _, parallelStep_iff.mpr ⟨hpc, rfl⟩, by simp⟩
  | command t => exact ⟨.command w t true, _, parallelStep_iff.mpr ⟨hpc, rfl⟩, by simp⟩
  | record t => exact ⟨.record w t true, _, parallelStep_iff.mpr ⟨hpc, rfl⟩, by simp⟩
  | _ => exact enabled_of_critical (w := w) (by rw [hpc]; trivial)

/-- While not all workers are created, the main thread can move. -/
theorem enabled_of_unborn (hl : LockInv a tr s) {w : Nat} (hw : w < a.workers)
    (h : s.pc w = .unborn) : Enabled a s := by
  have hcr := (hl.unborn w).mp h
  cases hm : s.main with
  | spawn i =>
    rw [hm] at hcr
    exact ⟨.spawn, _, parallelStep_iff.mpr ⟨i, lt_of_le_of_lt hcr hw, hm, rfl⟩, by simp⟩
  | broadcast => exact absurd hcr (by rw [hm]; exact Nat.not_le_of_lt hw)
  | join i => exact absurd hcr (by rw [hm]; exact Nat.not_le_of_lt hw)

/-- Somebody who holds `mu` can move. -/
theorem enabled_of_held (hl : LockInv a tr s) (hev : ∀ w t, .failed w t ∉ tr)
    (hmu : s.mu ≠ none) : Enabled a s := by
  cases hth : s.mu with
  | none => exact absurd hth hmu
  | some th =>
    cases th with
    | main =>
      exact ⟨.mainBroadcast, _, parallelStep_iff.mpr ⟨hl.main_mu.mp hth, rfl⟩, by simp⟩
    | worker v =>
      rcases hl.owned v hth with hc | ⟨t, -, ht⟩
      · exact enabled_of_critical hc
      · exact absurd ht (hev v t)

/-! ## 4. No worker waits in vain -/

/-- A cycle of dependencies inside the subset. -/
def SubsetCycle (a : ParallelArgs) (t : TaskPtr) : Prop :=
  TransGen (fun x u => DependsOn a.list x u ∧ u ∈ a.subset) t t

/-- While tasks remain, nobody holds one and the queue is empty, there is a cycle among the
rest, or a task that waits for one without a hash. -/
theorem exists_blocked (ha : a.Ok) (hh : HoldInv tr s) (hq : QueueInv a tr s)
    (hready : s.ready = []) (hrem : 0 < s.remaining) (hnone : ∀ w, (s.pc w).task = none) :
    (∃ t ∈ a.subset, SubsetCycle a t) ∨
      ∃ t ∈ hashFailures tr, ∃ u ∈ a.subset, DependsOn a.list u t := by
  by_contra hno
  obtain ⟨hac, hleaf⟩ := not_or.mp hno
  have hended : ∀ t ∈ popped tr, t ∈ finished tr ∨ t ∈ hashFailures tr := by
    intro t ht
    rcases hh.accounted t ht with h1 | h1 | ⟨w, hw⟩
    · exact .inl h1
    · exact .inr h1
    · rw [hnone w] at hw
      exact absurd hw (by simp)
  let S : Set TaskPtr := {x | x ∈ a.subset ∧ x ∉ popped tr}
  have hne : S.Nonempty := by
    by_contra hempty
    have hall : a.subset ⊆ finished tr ++ hashFailures tr := by
      intro x hx
      by_contra hxp
      refine hempty ⟨x, hx, fun hp => hxp ?_⟩
      exact List.mem_append.mpr (hended x hp)
    have hlen := (ha.nodup.subperm hall).length_le
    have hcount := hq.remaining
    rw [List.length_append] at hlen
    omega
  have hsucc : ∀ x ∈ S, ∃ y ∈ S, DependsOn a.list x y ∧ y ∈ a.subset := by
    rintro x ⟨hx, hxp⟩
    have hpos : 0 < remDeps a.list a.subset (finished tr) x := by
      refine Nat.pos_of_ne_zero fun h0 => hxp ?_
      simpa [hready] using (hq.ready_iff x hx).mp h0
    obtain ⟨u, hu, huf, hd⟩ := remDeps_pos.mp hpos
    refine ⟨u, ⟨hu, fun hup => ?_⟩, hd, hu⟩
    rcases hended u hup with h1 | h1
    · exact huf h1
    · exact hleaf ⟨u, h1, x, hx, hd⟩
  obtain ⟨x, hx, hc⟩ := Lib.exists_cycle
    ((List.finite_toSet a.subset).subset fun x (hx : x ∈ S) => hx.1) hne hsucc
  exact hac ⟨x, hx.1, hc⟩

/-- **No deadlock** in a run in which no `execute_task` fails, and no hash of a task that others
of the subset depend on. -/
theorem enabled_of_harmless (ha : a.Ok) (hac : ∀ t ∈ a.subset, ¬ SubsetCycle a t)
    (h : Run (ParallelStep a) (parallelInit a) tr s) (htr : ∀ e ∈ tr, e.Harmless a) {w : Nat}
    (hw : w < a.workers) (hne : s.pc w ≠ .exited) : Enabled a s := by
  have hl := lockInv_run h
  have hi := harmlessInv_run h htr
  obtain ⟨hh, hq⟩ := counts_run ha h
  by_cases hmu : s.mu = none
  · by_contra hdead
    have hunborn : ∀ v, v < a.workers → s.pc v ≠ .unborn := fun v hv hu =>
      hdead (enabled_of_unborn hl hv hu)
    -- every worker waits or is gone
    have hidle : ∀ v, v < a.workers → s.pc v = .waiting ∨ s.pc v = .exited := by
      intro v hv
      by_contra hno
      obtain ⟨h1, h2⟩ := not_or.mp hno
      exact hdead (enabled_of_free hmu ⟨hunborn v hv, h1, h2⟩)
    have hnone : ∀ v, (s.pc v).task = none := by
      intro v
      by_cases hv : v < a.workers
      · rcases hidle v hv with h1 | h1 <;> rw [h1] <;> rfl
      · rw [(hl.unborn v).mpr (hl.created_le.trans (Nat.le_of_not_lt hv))]
        rfl
    obtain ⟨hready, hrem⟩ := waitInv_run h w ((hidle w hw).resolve_right hne)
    rcases exists_blocked ha hh hq hready hrem hnone with ⟨t, ht, hc⟩ | ⟨t, ht, u, hu, hd⟩
    · exact hac t ht hc
    · exact hi.leaf t ht u hu hd
  · exact enabled_of_held hl hi.event hmu

/-- **No deadlock** for tasks of a manifest whose names nobody else has, without a cycle. -/
theorem parallel_progress {manifest : Bytes} {subset : List TaskPtr} {workers : Nat}
    (hnd : subset.Nodup) (hlt : ∀ t ∈ subset, t < (parseManifest manifest).length)
    (hnames : ∀ t ∈ subset, ∀ u,
      nameOf (parseManifest manifest) u = nameOf (parseManifest manifest) t → u = t)
    (hac : ∀ t ∈ subset,
      ¬ TransGen (fun x u => DependsOn (parseManifest manifest) x u ∧ u ∈ subset) t t)
    {tr : List ParallelEvent} {s : ParallelState}
    (h : Run (ParallelStep ⟨parseManifest manifest, subset, workers⟩)
      (parallelInit ⟨parseManifest manifest, subset, workers⟩) tr s)
    (htr : ∀ e ∈ tr, e.Harmless ⟨parseManifest manifest, subset, workers⟩) :
    (∃ w < workers, s.pc w ≠ .exited) → Enabled ⟨parseManifest manifest, subset, workers⟩ s := by
  rintro ⟨w, hw, hne⟩
  exact enabled_of_harmless ⟨parseManifest_wellLinked manifest, hnd, hlt, hnames⟩ hac h htr hw hne

/-- The theorem at a run of two workers, in which the hash fails of a task on which no other
depends. -/
theorem parallel_progress_chain :
    let manifest := ascii "task a \x7b\n\x7d\ntask b \x7b\n  deps = a\n\x7d\n"
    ∃ s, Run (ParallelStep ⟨parseManifest manifest, [0, 1], 2⟩)
        (parallelInit ⟨parseManifest manifest, [0, 1], 2⟩)
        [.spawn, .spawn, .lock 0, .pop 0 0, .lock 1, .wait 1, .hash 0 0 true, .lookup 0 0 true,
          .lock 0, .done 0 0, .lock 1, .pop 1 1, .hash 1 1 false] s ∧
      Enabled ⟨parseManifest manifest, [0, 1], 2⟩ s := by
  intro manifest
  have hdeps0 : depsOf (parseManifest manifest) 0 = [] := by decide
  have hdeps1 : depsOf (parseManifest manifest) 1 = [ascii "a"] := by decide
  have hfind : findTask (parseManifest manifest) (ascii "a") = some 0 := by decide
  have hn : ((parseManifest manifest).map Task.name).Nodup := by decide
  have hlen : (parseManifest manifest).length = 2 := by decide
  have hdep : ∀ x u, x ∈ [0, 1] → DependsOn (parseManifest manifest) x u → x = 1 ∧ u = 0 := by
    rintro x u hx ⟨d, hd, hf⟩
    rcases List.mem_pair.mp hx with rfl | rfl
    · simp [hdeps0] at hd
    · obtain rfl : d = ascii "a" := by simpa [hdeps1] using hd
      exact ⟨rfl, (Option.some.inj (hfind.symm.trans hf)).symm⟩
  have hend : (List.foldlM (parallelStep ⟨parseManifest manifest, [0, 1], 2⟩)
      (parallelInit ⟨parseManifest manifest, [0, 1], 2⟩)
      [.spawn, .spawn, .lock 0, .pop 0 0, .lock 1, .wait 1, .hash 0 0 true, .lookup 0 0 true,
        .lock 0, .done 0 0, .lock 1, .pop 1 1, .hash 1 1 false]).map (fun s => s.pc 0) =
      some .top := by
    decide +kernel
  obtain ⟨s, hs, hpc⟩ := Option.map_eq_some_iff.mp hend
  have hrun := Run.of_foldlM hs
  refine ⟨s, hrun, parallel_progress (by decide) ?_ ?_ ?_ hrun ?_ ⟨0, by decide, by simp [hpc]⟩⟩
  · intro t ht
    rw [hlen]
    rcases List.mem_pair.mp ht with rfl | rfl <;> decide
  · intro t ht u hu
    refine nameOf_inj hn ?_ hu
    rw [hlen]
    rcases List.mem_pair.mp ht with rfl | rfl <;> decide
  · intro t ht hc
    obtain ⟨u, ⟨hd, hu⟩, hut⟩ := TransGen.head'_iff.mp hc
    obtain ⟨rfl, rfl⟩ := hdep t u ht hd
    rcases hut.cases_head with h0 | ⟨v, ⟨hv, -⟩, -⟩
    · exact absurd h0 (by decide)
    · exact absurd (hdep 0 v (by decide) hv).1 (by decide)
  · intro e he
    have hleaf : ParallelEvent.Harmless ⟨parseManifest manifest, [0, 1], 2⟩ (.hash 1 1 false) :=
      fun u hu hd => absurd (hdep u 1 hu hd).2 (by decide)
    simp only [List.mem_cons, List.not_mem_nil, or_false] at he
    rcases he with rfl | rfl | rfl | rfl | rfl | rfl | rfl | rfl | rfl | rfl | rfl | rfl | rfl <;>
      first | exact True.intro | exact hleaf

/-! ## 5. The hang -/

/-- A worker at the second lock, with `mu` its own, and nobody else alive. -/
theorem not_enabled_of_relock {w i : Nat} {t : TaskPtr} (hmu : s.mu = some (.worker w))
    (hw : s.pc w = .lockDone t) (hothers : ∀ v, v ≠ w → s.pc v = .unborn)
    (hmain : s.main = .join i) : ¬ Enabled a s := by
  rintro ⟨e, s', hs, hsp⟩
  rw [parallelStep_iff] at hs
  have hpcs : ∀ v, s.pc v = .lockDone t ∨ s.pc v = .unborn := by
    intro v
    by_cases hv : v = w
    · exact .inl (hv ▸ hw)
    · exact .inr (hothers v hv)
  have hno : ∀ {v pc}, s.pc v = pc → (∀ t, pc ≠ .lockDone t) → pc ≠ .unborn → False := by
    intro v pc hpc h1 h2
    rcases hpcs v with h | h
    · exact h1 t (hpc.symm.trans h)
    · exact h2 (hpc.symm.trans h)
  cases e with
  | spawn =>
    obtain ⟨j, -, hm, -⟩ := hs
    simp [hmain] at hm
  | mainLock =>
    obtain ⟨hm, -⟩ := hs
    simp [hmain] at hm
  | mainBroadcast =>
    obtain ⟨hm, -⟩ := hs
    simp [hmain] at hm
  | join =>
    obtain ⟨j, -, -, hpc, -⟩ := hs
    exact hno hpc (by simp) (by simp)
  | lock v =>
    obtain ⟨hn, -⟩ := hs
    simp [hmu] at hn
  | pop v u =>
    obtain ⟨rest, -, hpc, -⟩ := hs
    exact hno hpc (by simp) (by simp)
  | hash v u ok => cases ok <;> exact hno hs.1 (by simp) (by simp)
  | lookup v u hit => cases hit <;> exact hno hs.1 (by simp) (by simp)
  | command v u ok => cases ok <;> exact hno hs.1 (by simp) (by simp)
  | record v u ok => cases ok <;> exact hno hs.1 (by simp) (by simp)
  | spurious v => exact hsp v rfl
  | _ => exact hno hs.1 (by simp) (by simp)

/-- One task whose command fails, one worker: it ends at the second lock. -/
theorem failed_command_hangs :
    let a : ParallelArgs := ⟨parseManifest (ascii "task a \x7b\n  cmd = false\n\x7d\n"), [0], 1⟩
    (a.list.map Task.name).Nodup ∧ a.subset.Nodup ∧ (∀ t ∈ a.subset, ¬ SubsetCycle a t) ∧
      ∃ tr s, Run (ParallelStep a) (parallelInit a) tr s ∧ s.pc 0 ≠ .exited ∧ ¬ Enabled a s := by
  intro a
  refine ⟨by decide, by decide, ?_, ?_⟩
  · rintro t ht hc
    obtain ⟨u, ⟨⟨d, hd, -⟩, -⟩, -⟩ := TransGen.head'_iff.mp hc
    obtain rfl : t = 0 := by simpa [a] using ht
    have : depsOf a.list 0 = [] := by decide
    simp [this] at hd
  · let tr : List ParallelEvent := [.spawn, .mainLock, .mainBroadcast, .lock 0, .pop 0 0,
      .hash 0 0 true, .lookup 0 0 false, .command 0 0 false, .lock 0, .failed 0 0]
    obtain ⟨s, hs, hmu, hpc, hmain⟩ : ∃ s, tr.foldlM (parallelStep a) (parallelInit a) = some s ∧
        s.mu = some (.worker 0) ∧ s.pc 0 = .lockDone 0 ∧ s.main = .join 0 :=
      ⟨_, rfl, rfl, rfl, rfl⟩
    have hrun := Run.of_foldlM hs
    refine ⟨tr, s, hrun, by simp [hpc], not_enabled_of_relock hmu hpc (fun v hv => ?_) hmain⟩
    rw [(lockInv_run hrun).unborn v, hmain]
    exact Nat.pos_of_ne_zero hv

end ReproVM
