/-
# What `collect_needed_tasks` collects

The dependencies form a graph: task `i` has an edge to the task that `find_task` gives for an
entry of its `deps`.  Whenever a walk returns, the array is a post-order of that graph without
repetitions, of exactly what was reached (`collectDfs_ok`); so a walk that meets a cycle never
returns.  Where no cycle can be reached the depth of the recursion is bounded, and the walk
returns unless `realloc` moves the array (`collectDfs_total`).
-/
import Mathlib.Data.List.Dedup
import Mathlib.Data.Set.Card
import Mathlib.Tactic.Ring
import ReproVM.Lib.Digraph
import ReproVM.Plan

namespace ReproVM

open Lib (PostOrder)
open Relation

/-! ## 1. The dependency graph -/

/-- Task `i` has an entry in its `deps` that names task `u`. -/
def DependsOn (list : TaskList) (i u : TaskPtr) : Prop :=
  ∃ d ∈ depsOf list i, findTask list d = some u

/-- A task that lies on a cycle of dependencies. -/
def OnCycle (list : TaskList) (t : TaskPtr) : Prop := TransGen (DependsOn list) t t

/-- A task that the targets need. -/
def Needed (list : TaskList) (targets : List Bytes) (t : TaskPtr) : Prop :=
  ∃ s ∈ startTasks list targets, ReflTransGen (DependsOn list) s t

/-- The tasks the loop over `t->deps` visits. -/
def succs (list : TaskList) (t : TaskPtr) : List TaskPtr :=
  (depsOf list t).filterMap (findTask list)

theorem mem_succs {list : TaskList} {t u : TaskPtr} : u ∈ succs list t ↔ DependsOn list t u := by
  rw [succs, List.mem_filterMap, DependsOn]

theorem DependsOn.lt {list : TaskList} {i u : TaskPtr} (h : DependsOn list i u) :
    u < list.length := by
  obtain ⟨d, -, hd⟩ := h
  exact findTask_lt hd

theorem startTasks_lt {list : TaskList} {targets : List Bytes} {t : TaskPtr}
    (h : t ∈ startTasks list targets) : t < list.length := by
  rw [startTasks] at h
  split at h
  · exact List.mem_range.mp h
  · obtain ⟨d, -, hd⟩ := List.mem_filterMap.mp h
    exact findTask_lt hd

theorem Needed.lt {list : TaskList} {targets : List Bytes} {t : TaskPtr}
    (h : Needed list targets t) : t < list.length := by
  obtain ⟨s, hs, hst⟩ := h
  rcases hst.cases_tail with rfl | ⟨u, -, hut⟩
  · exact startTasks_lt hs
  · exact hut.lt

theorem Needed.succ {list : TaskList} {targets : List Bytes} {t u : TaskPtr}
    (h : Needed list targets t) (hu : DependsOn list t u) : Needed list targets u := by
  obtain ⟨s, hs, hst⟩ := h
  exact ⟨s, hs, hst.tail hu⟩

theorem finite_needed (list : TaskList) (targets : List Bytes) :
    {t | Needed list targets t}.Finite :=
  (Set.finite_lt_nat list.length).subset fun _ h => h.lt

/-! ## 2. One frame of the walk -/

variable {moves : Nat → Bool} {list : TaskList}

theorem collectDfs_succ (fuel : Nat) (t : TaskPtr) (out : Nat) (a : OutArray) :
    collectDfs moves list (fuel + 1) t out a =
      if a.tasks ≠ [] ∧ out ≠ a.block then .error .useAfterFree
      else if t ∈ a.tasks then .ok a
      else (succs list t).foldlM (fun a u => collectDfs moves list fuel u out a) a >>= fun a =>
        appendOut moves out a t := by
  rw [collectDfs, succs, List.foldlM_filterMap]
  refine if_congr Iff.rfl rfl (if_congr Iff.rfl rfl ?_)
  refine congrArg (fun r => r >>= fun a => appendOut moves out a t) ?_
  congr 1
  funext a d
  cases findTask list d <;> rfl

/-- A frame that returns found its task in the array, or walked the dependencies and appended. -/
theorem collectDfs_inv {fuel : Nat} {t : TaskPtr} {out : Nat} {a a' : OutArray}
    (h : collectDfs moves list (fuel + 1) t out a = .ok a') :
    t ∈ a.tasks ∧ a' = a ∨
      t ∉ a.tasks ∧ ∃ b,
        (succs list t).foldlM (fun a u => collectDfs moves list fuel u out a) a = .ok b ∧
          appendOut moves out b t = .ok a' := by
  rw [collectDfs_succ] at h
  split at h
  · cases h
  · split at h
    · rename_i ht
      exact .inl ⟨ht, by cases h; rfl⟩
    · rename_i ht
      cases hb : (succs list t).foldlM (fun a u => collectDfs moves list fuel u out a) a with
      | error e => rw [hb] at h; cases h
      | ok b => exact .inr ⟨ht, b, rfl, by rwa [hb] at h⟩

/-- The array: no repetitions, dependencies first, and the block is the first one unless a
`realloc` that was needed moved it. -/
structure Collected (moves : Nat → Bool) (list : TaskList) (a : OutArray) : Prop where
  nodup : a.tasks.Nodup
  post : PostOrder (DependsOn list) a.tasks
  cap : ∃ g, a.cap = 16 * 2 ^ g ∧ a.tasks.length ≤ a.cap ∧ (∀ k < g, 16 * 2 ^ k < a.tasks.length) ∧
    (a.block = 0 → ∀ k < g, moves (16 * 2 ^ k) = false)

/-- What a walk from the tasks `us` does to the array. -/
structure Walked (list : TaskList) (us : List TaskPtr) (a a' : OutArray) : Prop where
  block : a.block ≤ a'.block
  keep : a.tasks ⊆ a'.tasks
  done : us ⊆ a'.tasks
  new : ∀ x ∈ a'.tasks, x ∈ a.tasks ∨ ∃ u ∈ us, ReflTransGen (DependsOn list) u x

theorem Walked.cons {u : TaskPtr} {us : List TaskPtr} {a b c : OutArray}
    (h1 : Walked list [u] a b) (h2 : Walked list us b c) : Walked list (u :: us) a c where
  block := Nat.le_trans h1.block h2.block
  keep := fun x hx => h2.keep (h1.keep hx)
  done x hx := by
    rcases List.mem_cons.mp hx with rfl | hx
    · exact h2.keep (h1.done List.mem_cons_self)
    · exact h2.done hx
  new x hx := by
    rcases h2.new x hx with hx | ⟨v, hv, hvx⟩
    · rcases h1.new x hx with hx | ⟨v, hv, hvx⟩
      · exact .inl hx
      · exact .inr ⟨v, by rw [List.mem_singleton.mp hv]; exact List.mem_cons_self, hvx⟩
    · exact .inr ⟨v, List.mem_cons_of_mem _ hv, hvx⟩

/-- Appending a task whose dependencies are there. -/
theorem Collected.append {out : Nat} {b a' : OutArray} {t : TaskPtr} (hb : Collected moves list b)
    (ht : t ∉ b.tasks) (hdeps : ∀ u, DependsOn list t u → u ∈ b.tasks)
    (h : appendOut moves out b t = .ok a') :
    Collected moves list a' ∧ a'.tasks = b.tasks ++ [t] ∧ b.block ≤ a'.block := by
  obtain ⟨g, hcap, hlen, hgrow, hmv⟩ := hb.cap
  have hnodup : (b.tasks ++ [t]).Nodup := by
    rw [List.nodup_append]
    refine ⟨hb.nodup, by simp, ?_⟩
    rintro x hx y hy rfl
    exact ht (by rwa [← List.mem_singleton.mp hy])
  have hpost := hb.post.snoc hdeps
  rw [appendOut] at h
  split at h
  · cases h
  · split at h
    · -- the array is full
      rename_i hfull
      obtain rfl := Except.ok.inj h
      refine ⟨⟨hnodup, hpost, g + 1, by rw [hcap]; ring, ?_, ?_, ?_⟩, rfl, ?_⟩
      · have : 0 < b.cap := by rw [hcap]; positivity
        simp
        omega
      · intro k hk
        rcases Nat.lt_succ_iff_lt_or_eq.mp hk with hk | rfl
        · have := hgrow k hk
          simp
          omega
        · rw [← hcap]
          simp
          omega
      · intro h0 k hk
        cases hm : moves b.cap with
        | true => simp [hm] at h0
        | false =>
          rcases Nat.lt_succ_iff_lt_or_eq.mp hk with hk | rfl
          · exact hmv (by simpa [hm] using h0) k hk
          · rw [← hcap, hm]
      · simp only
        split <;> omega
    · rename_i hroom
      obtain rfl := Except.ok.inj h
      refine ⟨⟨hnodup, hpost, g, hcap, by simp; omega, fun k hk => ?_, hmv⟩, rfl, Nat.le_refl _⟩
      have := hgrow k hk
      simp
      omega

/-- A walk over several tasks, from what a walk from one of them does. -/
theorem foldlM_walked {call : OutArray → TaskPtr → Except Fault OutArray}
    (hcall : ∀ a a' u, call a u = .ok a' → Collected moves list a →
      Collected moves list a' ∧ Walked list [u] a a')
    {us : List TaskPtr} {a a' : OutArray} (h : us.foldlM call a = .ok a')
    (ha : Collected moves list a) : Collected moves list a' ∧ Walked list us a a' := by
  induction us generalizing a with
  | nil =>
    obtain rfl := Except.ok.inj h
    exact ⟨ha, Nat.le_refl _, fun _ hx => hx, by simp, fun x hx => .inl hx⟩
  | cons u us ih =>
    rw [List.foldlM_cons] at h
    cases hb : call a u with
    | error e => rw [hb] at h; cases h
    | ok b =>
      rw [hb] at h
      obtain ⟨h1, h2⟩ := hcall a b u hb ha
      obtain ⟨h3, h4⟩ := ih h h1
      exact ⟨h3, h2.cons h4⟩

/-- **A walk that returns** leaves a post-order that holds its task, and adds only what the task
reaches. -/
theorem collectDfs_ok {fuel : Nat} {t : TaskPtr} {out : Nat} {a a' : OutArray}
    (h : collectDfs moves list fuel t out a = .ok a') (ha : Collected moves list a) :
    Collected moves list a' ∧ Walked list [t] a a' := by
  induction fuel generalizing t a a' with
  | zero => cases h
  | succ fuel ih =>
    rcases collectDfs_inv h with ⟨ht, rfl⟩ | ⟨ht, b, hb, happ⟩
    · exact ⟨ha, Nat.le_refl _, fun _ hx => hx, by simpa using ht, fun x hx => .inl hx⟩
    · obtain ⟨hcb, hw⟩ := foldlM_walked (fun a a' u h ha => ih h ha) hb ha
      have hdeps : ∀ u, DependsOn list t u → u ∈ b.tasks := fun u hu => hw.done (mem_succs.mpr hu)
      -- the walk over the dependencies did not come back to `t`, which would close a cycle
      have htb : t ∉ b.tasks := by
        intro htb
        rcases hw.new t htb with hta | ⟨u, hu, hut⟩
        · exact ht hta
        · exact hcb.post.acyclic htb (TransGen.head' (mem_succs.mp hu) hut)
      obtain ⟨hca, htasks, hblock⟩ := hcb.append htb hdeps happ
      refine ⟨hca, Nat.le_trans hw.block hblock, ?_, ?_, ?_⟩
      · rw [htasks]
        exact fun x hx => List.mem_append_left _ (hw.keep hx)
      · simp [htasks]
      · intro x hx
        rw [htasks, List.mem_append, List.mem_singleton] at hx
        rcases hx with hx | rfl
        · rcases hw.new x hx with hx | ⟨u, hu, hux⟩
          · exact .inl hx
          · exact .inr ⟨t, by simp, hux.head (mem_succs.mp hu)⟩
        · exact .inr ⟨x, by simp, .refl⟩

/-! ## 3. Where the walk returns -/

/-- From an array in its first block that holds tasks of `S`, the call returns one. -/
def Returns (moves : Nat → Bool) (list : TaskList) (S : Set TaskPtr)
    (call : OutArray → Except Fault OutArray) : Prop :=
  ∀ a, Collected moves list a → a.block = 0 → (∀ x ∈ a.tasks, x ∈ S) →
    ∃ a', call a = .ok a' ∧ a'.block = 0

variable {S : Set TaskPtr}

theorem Walked.subset {us : List TaskPtr} {a a' : OutArray} (hw : Walked list us a a')
    (hcl : ∀ x ∈ S, ∀ y, DependsOn list x y → y ∈ S) (hus : ∀ u ∈ us, u ∈ S)
    (ha : ∀ x ∈ a.tasks, x ∈ S) : ∀ x ∈ a'.tasks, x ∈ S := by
  intro x hx
  rcases hw.new x hx with hx | ⟨u, hu, hux⟩
  · exact ha x hx
  · exact Lib.closed_reach hcl (hus u hu) hux

/-- Walking over several tasks of `S`. -/
theorem foldlM_returns (hcl : ∀ x ∈ S, ∀ y, DependsOn list x y → y ∈ S) {us : List TaskPtr}
    (hus : ∀ u ∈ us, u ∈ S)
    (hcall : ∀ u ∈ us, ∃ f, ∀ fuel, f ≤ fuel →
      Returns moves list S (collectDfs moves list fuel u 0)) :
    ∃ f, ∀ fuel, f ≤ fuel →
      Returns moves list S fun a => us.foldlM (fun a u => collectDfs moves list fuel u 0 a) a := by
  induction us with
  | nil => exact ⟨0, fun fuel _ a _ h0 _ => ⟨a, rfl, h0⟩⟩
  | cons u us ih =>
    obtain ⟨f, hf⟩ := hcall u List.mem_cons_self
    obtain ⟨g, hg⟩ := ih (fun v hv => hus v (List.mem_cons_of_mem _ hv))
      fun v hv => hcall v (List.mem_cons_of_mem _ hv)
    refine ⟨max f g, fun fuel hfuel a ha h0 haS => ?_⟩
    obtain ⟨b, hb, hb0⟩ := hf fuel (le_trans (le_max_left f g) hfuel) a ha h0 haS
    obtain ⟨hcb, hwb⟩ := collectDfs_ok hb ha
    obtain ⟨c, hc, hc0⟩ := hg fuel (le_trans (le_max_right f g) hfuel) b hcb hb0
      (hwb.subset hcl (by simpa using hus u List.mem_cons_self) haS)
    refine ⟨c, ?_, hc0⟩
    dsimp only at hc ⊢
    rw [List.foldlM_cons, hb]
    exact hc

/-- There is room to append while the array holds fewer tasks than `S` and `realloc` does not
move it. -/
theorem appendOut_returns (hfin : S.Finite)
    (hmv : ∀ k, 16 * 2 ^ k < S.ncard → moves (16 * 2 ^ k) = false) {b : OutArray} {t : TaskPtr}
    (hb : Collected moves list b) (hb0 : b.block = 0) (hbS : ∀ x ∈ b.tasks, x ∈ S) (ht : t ∈ S)
    (htb : t ∉ b.tasks) : ∃ a', appendOut moves 0 b t = .ok a' ∧ a'.block = 0 := by
  have hlt : b.tasks.length < S.ncard := by
    have hsub : (↑(t :: b.tasks).toFinset : Set TaskPtr) ⊆ S := by
      intro x hx
      simp only [List.coe_toFinset, Set.mem_ofPred_eq, List.mem_cons] at hx
      rcases hx with rfl | hx
      · exact ht
      · exact hbS x hx
    have := Set.ncard_le_ncard hsub hfin
    rw [Set.ncard_coe_finset, List.toFinset_card_of_nodup (List.nodup_cons.mpr ⟨htb, hb.nodup⟩),
      List.length_cons] at this
    omega
  obtain ⟨g, hcap, -⟩ := hb.cap
  rw [appendOut, hb0, if_neg (by simp)]
  split
  · rename_i hfull
    have hstay : moves b.cap = false := by
      rw [hcap] at hfull ⊢
      exact hmv g (by omega)
    exact ⟨_, rfl, by simp [hstay]⟩
  · exact ⟨_, rfl, rfl⟩

/-- **A walk in a finite part without cycles returns**, if `realloc` does not move the array
while it grows to the size of that part. -/
theorem collectDfs_total (hfin : S.Finite) (hcl : ∀ x ∈ S, ∀ y, DependsOn list x y → y ∈ S)
    (hac : ∀ x ∈ S, ¬ OnCycle list x)
    (hmv : ∀ k, 16 * 2 ^ k < S.ncard → moves (16 * 2 ^ k) = false) {t : TaskPtr} (ht : t ∈ S) :
    ∃ f, ∀ fuel, f ≤ fuel → Returns moves list S (collectDfs moves list fuel t 0) := by
  -- along the edges, which are well founded on `S`
  induction Lib.acc_of_acyclic hfin hcl hac ht with
  | intro t _ ih =>
    have hus : ∀ u ∈ succs list t, u ∈ S := fun u hu => hcl t ht u (mem_succs.mp hu)
    obtain ⟨f, hf⟩ := foldlM_returns hcl hus fun u hu => ih u (mem_succs.mp hu) (hus u hu)
    refine ⟨f + 1, fun fuel hfuel a ha h0 haS => ?_⟩
    obtain ⟨fuel, rfl⟩ : ∃ n, fuel = n + 1 := ⟨fuel - 1, by omega⟩
    rw [collectDfs_succ, if_neg (by simp [h0])]
    by_cases hta : t ∈ a.tasks
    · exact ⟨a, if_pos hta, h0⟩
    · obtain ⟨b, hb, hb0⟩ := hf fuel (by omega) a ha h0 haS
      dsimp only at hb
      obtain ⟨hcb, hw⟩ := foldlM_walked (fun a a' u h ha => collectDfs_ok h ha) hb ha
      have htb : t ∉ b.tasks := by
        intro htb
        rcases hw.new t htb with h | ⟨u, hu, hut⟩
        · exact hta h
        · exact hac t ht (TransGen.head' (mem_succs.mp hu) hut)
      obtain ⟨a', ha', h0'⟩ := appendOut_returns hfin hmv hcb hb0 (hw.subset hcl hus haS) ht htb
      exact ⟨a', by rw [if_neg hta, hb]; exact ha', h0'⟩

/-! ## 4. The collected set -/

theorem collected_init : Collected moves list ⟨0, [], 16⟩ :=
  ⟨List.nodup_nil, .nil, 0, rfl, by simp, by simp, by simp⟩

/-- **What is collected**: the tasks that the targets need, each once, after its dependencies;
and no `realloc` on the way moved the array. -/
theorem collectNeededTasks_ok {fuel : Nat} {targets : List Bytes} {needed : List TaskPtr}
    (h : collectNeededTasks moves fuel list targets = .ok needed) :
    needed.Nodup ∧ PostOrder (DependsOn list) needed ∧
      (∀ t, t ∈ needed ↔ Needed list targets t) ∧
      ∀ k, 16 * 2 ^ k < needed.length → moves (16 * 2 ^ k) = false := by
  rw [collectNeededTasks] at h
  cases ha : (startTasks list targets).foldlM (fun a t => collectDfs moves list fuel t 0 a)
      ⟨0, [], 16⟩ with
  | error e => rw [ha] at h; cases h
  | ok a =>
    obtain ⟨hc, hw⟩ := foldlM_walked (fun a a' u h ha => collectDfs_ok h ha) ha collected_init
    obtain ⟨g, hcap, hlen, -, hmv⟩ := hc.cap
    obtain ⟨hstale, rfl⟩ : ¬ (a.tasks ≠ [] ∧ a.block ≠ 0) ∧ a.tasks = needed := by
      rw [ha] at h
      by_cases hs : a.tasks ≠ [] ∧ a.block ≠ 0
      · simp only [bind, Except.bind, if_pos hs] at h
        cases h
      · simp only [bind, Except.bind, if_neg hs] at h
        exact ⟨hs, Except.ok.inj h⟩
    refine ⟨hc.nodup, hc.post, fun t => ⟨fun ht => ?_, fun ht => ?_⟩, fun k hk => ?_⟩
    · rcases hw.new t ht with h | ⟨s, hs, hst⟩
      · simp at h
      · exact ⟨s, hs, hst⟩
    · obtain ⟨s, hs, hst⟩ := ht
      exact hc.post.reach_mem (hw.done hs) hst
    · have hne : a.tasks ≠ [] := by
        intro h0
        simp [h0] at hk
      have hkg : k < g := by
        by_contra hge
        have := Nat.pow_le_pow_right (Nat.zero_lt_two) (Nat.le_of_not_lt hge)
        omega
      exact hmv (by_contra fun h0 => hstale ⟨hne, h0⟩) k hkg

/-- The length of the collected array is the number of the tasks the targets need. -/
theorem length_of_mem_iff {needed : List TaskPtr} (hnd : needed.Nodup) {p : TaskPtr → Prop}
    (hmem : ∀ t, t ∈ needed ↔ p t) : needed.length = {t | p t}.ncard := by
  have hset : {t | p t} = (↑needed.toFinset : Set TaskPtr) := by
    ext t
    simp [← hmem]
  rw [hset, Set.ncard_coe_finset, List.toFinset_card_of_nodup hnd]

/-- Where the walk over all the targets returns, the array is in its first block. -/
theorem collectAll_returns {targets : List Bytes}
    (hac : ∀ t, Needed list targets t → ¬ OnCycle list t)
    (hmv : ∀ k, 16 * 2 ^ k < {t | Needed list targets t}.ncard → moves (16 * 2 ^ k) = false) :
    ∃ f, ∀ fuel, f ≤ fuel → ∃ a : OutArray, a.block = 0 ∧
      (startTasks list targets).foldlM (fun a t => collectDfs moves list fuel t 0 a) ⟨0, [], 16⟩
        = .ok a := by
  have hfin := finite_needed list targets
  have hcl : ∀ x ∈ {t | Needed list targets t}, ∀ y, DependsOn list x y →
      y ∈ {t | Needed list targets t} := fun x hx y hxy => Needed.succ hx hxy
  have hus : ∀ u ∈ startTasks list targets, u ∈ {t | Needed list targets t} :=
    fun u hu => ⟨u, hu, .refl⟩
  obtain ⟨f, hf⟩ := foldlM_returns hcl hus fun u hu => collectDfs_total hfin hcl hac hmv (hus u hu)
  refine ⟨f, fun fuel hfuel => ?_⟩
  obtain ⟨a, ha, h0⟩ := hf fuel hfuel ⟨0, [], 16⟩ collected_init rfl (by simp)
  exact ⟨a, h0, ha⟩

/-- **Where it returns.** -/
theorem collectNeededTasks_total {targets : List Bytes}
    (hac : ∀ t, Needed list targets t → ¬ OnCycle list t)
    (hmv : ∀ k, 16 * 2 ^ k < {t | Needed list targets t}.ncard → moves (16 * 2 ^ k) = false) :
    ∃ f, ∀ fuel, f ≤ fuel → ∃ needed, collectNeededTasks moves fuel list targets = .ok needed := by
  obtain ⟨f, hf⟩ := collectAll_returns hac hmv
  refine ⟨f, fun fuel hfuel => ?_⟩
  obtain ⟨a, h0, ha⟩ := hf fuel hfuel
  exact ⟨a.tasks, by rw [collectNeededTasks, ha]; simp [bind, Except.bind, h0]⟩

end ReproVM
