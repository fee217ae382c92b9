/-
# The edge counts of the two schedulers

The edges into a task are counted in four ways: `topo_sort` counts its `deps` against every task
of the subset that has the name, `execute_tasks_parallel` counts the entries for which there is
one, `topo_sort` lowers its count through the `dependents` pointers, and `worker_main` through
the first task of the subset that has the name of the dependent.  Task by task they are the same
for distinct names, and exactly for those repeated names that none of the lookups can confuse.
-/
import ReproVM.ParallelCounts

namespace ReproVM

open Bytes (ascii)

variable {list : TaskList} {subset : List TaskPtr}

/-! ## 1. The four counts -/

/-- What the tasks of the subset have in their `dependents`, one after the other. -/
def allDependents (list : TaskList) (subset : List TaskPtr) : List TaskPtr :=
  subset.flatMap (dependentsOf list)

/-- How often `topo_sort` lowers the indegree of `i` when every task of the subset is done. -/
def topoDecrements (list : TaskList) (subset : List TaskPtr) (i : TaskPtr) : Nat :=
  (allDependents list subset).count i

/-- How often `worker_main` lowers `pending_deps[idx]` when every task of the subset is done. -/
def workerDecrements (list : TaskList) (subset : List TaskPtr) (idx : Nat) : Nat :=
  (allDependents list subset).countP fun dep =>
    (nameOf list dep).bind (findTaskIndex list subset) = some idx

/-- A pass over `t->dependents` in `topo_sort` lowers the indegree of a task of the subset once
for every entry. -/
theorem foldlM_decreaseIndegree_indegree {i : TaskPtr} (hi : i ∈ subset) (xs : List TaskPtr)
    {s s' : Kahn} (h : xs.foldlM (decreaseIndegree subset) s = .ok s') :
    s'.indegree i = s.indegree i - xs.count i := by
  induction xs generalizing s with
  | nil =>
    obtain rfl := Except.ok.inj h
    simp
  | cons x xs ih =>
    rw [List.foldlM_cons] at h
    cases hx : decreaseIndegree subset s x with
    | error e => simp [hx, bind, Except.bind] at h
    | ok s₁ =>
      simp only [hx, bind, Except.bind] at h
      have hone : s₁.indegree i = s.indegree i - if x = i then 1 else 0 := by
        rw [decreaseIndegree] at hx
        by_cases hxs : x ∈ subset
        · have hupd : Function.update s.indegree x (s.indegree x - 1) i
              = s.indegree i - if x = i then 1 else 0 := by
            by_cases hxi : x = i
            · subst hxi
              simp
            · rw [Function.update_of_ne (Ne.symm hxi), if_neg hxi]
              omega
          rw [if_neg (not_not_intro hxs)] at hx
          dsimp only at hx
          split at hx
          · split at hx
            · obtain rfl := Except.ok.inj hx
              exact hupd
            · cases hx
          · obtain rfl := Except.ok.inj hx
            exact hupd
        · rw [if_pos hxs] at hx
          obtain rfl := Except.ok.inj hx
          have hne : x ≠ i := fun h => hxs (h ▸ hi)
          rw [if_neg hne]
          omega
      rw [ih h, hone, List.count_cons]
      by_cases hxi : x = i
      · subst hxi
        simp
        omega
      · simp [hxi]

/-- A pass over `t->dependents` in `worker_main` lowers an entry of `pending_deps` once for every
dependent whose name is found there. -/
theorem foldl_releaseDependent_pending {a : ParallelArgs} (idx : Nat) (xs : List TaskPtr)
    (s : ParallelState) :
    (xs.foldl (releaseDependent a) s).pendingDeps idx = s.pendingDeps idx -
      xs.countP fun dep => (nameOf a.list dep).bind (findTaskIndex a.list a.subset) = some idx := by
  induction xs generalizing s with
  | nil => simp
  | cons x xs ih =>
    have hone : (releaseDependent a s x).pendingDeps idx = s.pendingDeps idx -
        if (nameOf a.list x).bind (findTaskIndex a.list a.subset) = some idx then 1 else 0 := by
      rw [releaseDependent]
      cases hf : (nameOf a.list x).bind (findTaskIndex a.list a.subset) with
      | none => simp
      | some j =>
        have hupd : Function.update s.pendingDeps j (s.pendingDeps j - 1) idx
            = s.pendingDeps idx - if some j = some idx then 1 else 0 := by
          by_cases hj : j = idx
          · subst hj
            simp
          · rw [Function.update_of_ne (Ne.symm hj), if_neg (by simpa using hj)]
            omega
        dsimp only
        split <;> exact hupd
    rw [List.foldl_cons, ih, hone, List.countP_cons]
    by_cases h : (nameOf a.list x).bind (findTaskIndex a.list a.subset) = some idx
    · simp only [h, if_true, decide_true]
      push_cast
      omega
    · simp [h]

/-- The counts agree on a task of the subset, the one at position `idxOf i`. -/
structure EdgeCountsAgree (a : ParallelArgs) (i : TaskPtr) : Prop where
  initial : initIndegree a.list a.subset i = (parallelInit a).pendingDeps (a.subset.idxOf i)
  topo : initIndegree a.list a.subset i = topoDecrements a.list a.subset i
  worker : initIndegree a.list a.subset i = workerDecrements a.list a.subset (a.subset.idxOf i)

/-! ## 2. Initial counts and the pointers -/

/-- The entries of `deps` that name a task of the subset. -/
def knownCount (list : TaskList) (subset : List TaskPtr) (i : TaskPtr) : Nat :=
  (depsOf list i).countP fun d => (findTaskIndex list subset d).isSome

/-- `find_task` gives the task of the subset that has the name. -/
def NamedFirst (list : TaskList) (subset : List TaskPtr) (d : Bytes) : Prop :=
  ∀ j ∈ subset, nameOf list j = some d → findTask list d = some j

theorem findTaskIndex_isSome (d : Bytes) :
    (findTaskIndex list subset d).isSome ↔ ∃ j ∈ subset, nameOf list j = some d := by
  rw [findTaskIndex, List.findIdx?_isSome, List.any_eq_true]
  simp

/-- One entry: how many tasks have its name, whether one has, whether the first one is in. -/
theorem entry_counts (hs : subset.Nodup) (d : Bytes) :
    let named := subset.countP fun j => nameOf list j = some d
    let known := if (findTaskIndex list subset d).isSome then 1 else 0
    let found := if (match findTask list d with
      | some u => decide (u ∈ subset ∧ u ∉ ([] : List TaskPtr))
      | none => false) = true then 1 else 0
    found ≤ known ∧ known ≤ named ∧ (named = known ∧ known = found ↔ NamedFirst list subset d) := by
  intro named known found
  have hfound : found = if ∃ u ∈ subset, findTask list d = some u then 1 else 0 := by
    dsimp only [found]
    congr 1
    cases hf : findTask list d with
    | none => simp
    | some u => simp [eq_comm]
  have hknown : known = if ∃ j ∈ subset, nameOf list j = some d then 1 else 0 := by
    dsimp only [known]
    simp only [findTaskIndex_isSome]
  have hnamed : named = (subset.filter fun j => nameOf list j = some d).length :=
    List.countP_eq_length_filter
  have hmem : ∀ j, j ∈ subset.filter (fun j => nameOf list j = some d) ↔
      j ∈ subset ∧ nameOf list j = some d := by simp
  by_cases hK : ∃ j ∈ subset, nameOf list j = some d
  · rw [if_pos hK] at hknown
    have hpos : 0 < named := by
      obtain ⟨j, hj, hd⟩ := hK
      rw [hnamed]
      exact List.length_pos_of_mem ((hmem j).mpr ⟨hj, hd⟩)
    have hle : found ≤ 1 := by
      rw [hfound]
      split <;> omega
    refine ⟨by omega, by omega, fun ⟨h1, h2⟩ j hj hd => ?_, fun hfirst => ?_⟩
    · -- the one task with the name is the one that is found
      have hF : ∃ u ∈ subset, findTask list d = some u := by
        by_contra hno
        rw [if_neg hno] at hfound
        omega
      obtain ⟨u, hu, hf⟩ := hF
      obtain ⟨v, hv⟩ := List.length_eq_one_iff.mp (hnamed.symm.trans (h1.trans hknown))
      have hjv := (hmem j).mpr ⟨hj, hd⟩
      have huv := (hmem u).mpr ⟨hu, nameOf_of_findTask hf⟩
      rw [hv, List.mem_singleton] at hjv huv
      rw [hjv, ← huv, hf]
    · obtain ⟨j, hj, hd⟩ := hK
      have hf := hfirst j hj hd
      have hone : named ≤ 1 := by
        have hsub : subset.filter (fun j => nameOf list j = some d) ⊆ [j] := by
          intro u hu
          obtain ⟨hus, hud⟩ := (hmem u).mp hu
          rw [List.mem_singleton, Option.some.inj ((hfirst u hus hud).symm.trans hf)]
        rw [hnamed]
        exact ((hs.filter _).subperm hsub).length_le
      rw [if_pos ⟨j, hj, hf⟩] at hfound
      omega
  · rw [if_neg hK] at hknown
    have hF : ¬ ∃ u ∈ subset, findTask list d = some u := fun ⟨u, hu, hf⟩ =>
      hK ⟨u, hu, nameOf_of_findTask hf⟩
    rw [if_neg hF] at hfound
    have hzero : named = 0 := by
      rw [hnamed, List.length_eq_zero_iff, List.filter_eq_nil_iff]
      intro j hj hd
      exact hK ⟨j, hj, by simpa using hd⟩
    exact ⟨by omega, by omega, fun _ j hj hd => absurd ⟨j, hj, hd⟩ hK, fun _ => by omega⟩

/-- **The three counts of `deps`** are equal where every name is found first. -/
theorem deps_counts (hs : subset.Nodup) (i : TaskPtr) :
    nameCount list subset i = knownCount list subset i ∧
        nameCount list subset i = remDeps list subset [] i ↔
      ∀ d ∈ depsOf list i, NamedFirst list subset d := by
  rw [nameCount, knownCount, remDeps]
  suffices h : ∀ l : List Bytes,
      (l.countP fun d => match findTask list d with
          | some u => decide (u ∈ subset ∧ u ∉ ([] : List TaskPtr))
          | none => false) ≤ l.countP (fun d => (findTaskIndex list subset d).isSome) ∧
      l.countP (fun d => (findTaskIndex list subset d).isSome)
        ≤ (l.map fun d => subset.countP fun j => nameOf list j = some d).sum ∧
      ((l.map fun d => subset.countP fun j => nameOf list j = some d).sum
            = l.countP (fun d => (findTaskIndex list subset d).isSome) ∧
          (l.map fun d => subset.countP fun j => nameOf list j = some d).sum
            = (l.countP fun d => match findTask list d with
              | some u => decide (u ∈ subset ∧ u ∉ ([] : List TaskPtr))
              | none => false) ↔
        ∀ d ∈ l, NamedFirst list subset d) from (h (depsOf list i)).2.2
  intro l
  induction l with
  | nil => simp
  | cons d l ih =>
    obtain ⟨h1, h2, h3⟩ := @entry_counts list subset hs d
    obtain ⟨h4, h5, h6⟩ := ih
    simp only [List.countP_cons, List.map_cons, List.sum_cons, List.forall_mem_cons, ← h6, ← h3]
    omega

/-- The pointers lead to a task as often as its `deps` resolve into the subset. -/
theorem topoDecrements_eq (hl : WellLinked list) (hs : subset.Nodup) (i : TaskPtr) :
    topoDecrements list subset i = remDeps list subset [] i := by
  have hrun : ∀ done : List TaskPtr, done.Nodup → done ⊆ subset →
      remDeps list subset done i + (done.flatMap (dependentsOf list)).count i
        = remDeps list subset [] i := by
    intro done
    induction done using List.reverseRecOn with
    | nil => intro _ _; simp
    | append_singleton done t ih =>
      intro hnd hsub
      obtain ⟨hdone, -, hne⟩ := List.nodup_append.mp hnd
      have htd : t ∉ done := fun h => hne t h t (List.mem_singleton.mpr rfl) rfl
      have := ih hdone fun x hx => hsub (List.mem_append_left _ hx)
      rw [List.flatMap_append, List.count_append, List.flatMap_singleton, hl t i, ← this,
        remDeps_append (hsub (by simp)) htd]
      omega
  have hzero : remDeps list subset subset i = 0 := by
    by_contra h
    obtain ⟨u, hu, hnot, -⟩ := remDeps_pos.mp (Nat.pos_of_ne_zero h)
    exact hnot hu
  have := hrun subset hs fun _ h => h
  rw [hzero, Nat.zero_add] at this
  exact this

/-! ## 3. The lookup of the dependents -/

theorem count_le_countP {α : Type*} [DecidableEq α] {p : α → Bool} {a : α} (ha : p a)
    (l : List α) : l.count a ≤ l.countP p := by
  rw [List.count_eq_countP]
  refine List.countP_mono_left fun x _ hx => ?_
  rw [beq_iff_eq] at hx
  rwa [hx]

theorem countP_eq_count_iff {α : Type*} [DecidableEq α] {p : α → Bool} {a : α} (ha : p a)
    (l : List α) : l.countP p = l.count a ↔ ∀ x ∈ l, p x → x = a := by
  induction l with
  | nil => simp
  | cons x l ih =>
    have hle := count_le_countP ha l
    rw [List.countP_cons, List.count_cons, List.forall_mem_cons, ← ih]
    by_cases hx : x = a
    · subst hx
      simp [ha]
    · by_cases hp : p x
      · simp [hx, hp]
        omega
      · simp [hx, hp]

/-- The first task of the subset that has the name of `x` is `x`. -/
def FoundAsItself (list : TaskList) (subset : List TaskPtr) (x : TaskPtr) : Prop :=
  ∀ j, (nameOf list x).bind (findTaskIndex list subset) = some j → subset[j]? = some x

theorem mem_allDependents (hl : WellLinked list) {x : TaskPtr} :
    x ∈ allDependents list subset ↔
      ∃ d ∈ depsOf list x, ∃ u ∈ subset, findTask list d = some u := by
  have hmem : ∀ u, x ∈ dependentsOf list u ↔ ∃ d ∈ depsOf list x, findTask list d = some u := by
    intro u
    rw [← List.count_pos_iff, hl u x, edgeCount, List.countP_pos_iff]
    simp
  rw [allDependents, List.mem_flatMap]
  constructor
  · rintro ⟨u, hu, hx⟩
    obtain ⟨d, hd, hf⟩ := (hmem u).mp hx
    exact ⟨d, hd, u, hu, hf⟩
  · rintro ⟨d, hd, u, hu, hf⟩
    exact ⟨u, hu, (hmem u).mpr ⟨d, hd, hf⟩⟩

theorem findTaskIndex_some {d : Bytes} {j : Nat} (h : findTaskIndex list subset d = some j) :
    ∃ i, subset[j]? = some i ∧ nameOf list i = some d := by
  obtain ⟨hj, hd, -⟩ := List.findIdx?_eq_some_iff_getElem.mp h
  exact ⟨subset[j], List.getElem?_eq_getElem hj, by simpa using hd⟩

theorem idxOf_of_getElem? (hs : subset.Nodup) {i : TaskPtr} {j : Nat} (h : subset[j]? = some i) :
    subset.idxOf i = j := by
  obtain ⟨hj, rfl⟩ := List.getElem?_eq_some_iff.mp h
  exact hs.idxOf_getElem j hj

/-- **The decrements by pointer and by name** are equal where every dependent is found as
itself. -/
theorem decrements_iff (hl : WellLinked list) (hs : subset.Nodup) :
    (∀ i ∈ subset, workerDecrements list subset (subset.idxOf i) = topoDecrements list subset i) ↔
      ∀ x ∈ allDependents list subset, FoundAsItself list subset x := by
  constructor
  · intro h x hx j hj
    obtain ⟨d, hd, hf⟩ := Option.bind_eq_some_iff.mp hj
    obtain ⟨i, hi, hn⟩ := findTaskIndex_some hf
    have hcount := h i (List.mem_of_getElem? hi)
    rw [idxOf_of_getElem? hs hi] at hcount
    let p : TaskPtr → Bool := fun dep => (nameOf list dep).bind (findTaskIndex list subset) = some j
    have hp : p i = true := by
      dsimp only [p]
      rw [hn, Option.bind_some, hf]
      simp
    rw [workerDecrements, topoDecrements] at hcount
    rw [hi, (countP_eq_count_iff hp _).mp hcount x hx (decide_eq_true hj)]
  · intro h i hi
    rw [workerDecrements, topoDecrements, List.count_eq_countP]
    refine List.countP_congr fun x hx => ?_
    rw [decide_eq_true_eq, beq_iff_eq]
    have hget : subset[subset.idxOf i]? = some i :=
      List.getElem?_eq_some_iff.mpr ⟨List.idxOf_lt_length_of_mem hi, List.getElem_idxOf _⟩
    constructor
    · intro hp
      exact Option.some.inj ((h x hx _ hp).symm.trans hget)
    · rintro rfl
      -- a dependent has a name, and one of the subset has it
      obtain ⟨d, hd, -⟩ := (mem_allDependents hl).mp hx
      obtain ⟨n, hn⟩ : ∃ n, nameOf list x = some n := by
        unfold depsOf at hd
        unfold nameOf
        cases hlx : list[x]? with
        | none => simp [hlx] at hd
        | some task => exact ⟨task.name, rfl⟩
      obtain ⟨j, hj⟩ := Option.isSome_iff_exists.mp ((findTaskIndex_isSome n).mpr ⟨x, hi, hn⟩)
      have hbind : (nameOf list x).bind (findTaskIndex list subset) = some j := by
        rw [hn, Option.bind_some, hj]
      rw [hbind, idxOf_of_getElem? hs (h x hx j hbind)]

/-! ## 4. All four -/

/-- No lookup by name is confused by a name that is repeated: a dependency that is the name of a
task of the subset is resolved by `find_task` to each such task, so there is one; and a task of
the manifest with a dependency in the subset is not shadowed by one of the subset with its
name. -/
structure NamesResolve (list : TaskList) (subset : List TaskPtr) : Prop where
  deps : ∀ i ∈ subset, ∀ d ∈ depsOf list i, NamedFirst list subset d
  dependents : ∀ x, (∃ d ∈ depsOf list x, ∃ u ∈ subset, findTask list d = some u) →
    FoundAsItself list subset x

theorem parallelInit_pending {a : ParallelArgs} {i : TaskPtr} (hi : i ∈ a.subset) :
    (parallelInit a).pendingDeps (a.subset.idxOf i) = knownCount a.list a.subset i := by
  have hget : a.subset[a.subset.idxOf i]? = some i :=
    List.getElem?_eq_some_iff.mpr ⟨List.idxOf_lt_length_of_mem hi, List.getElem_idxOf _⟩
  dsimp only [parallelInit]
  rw [hget]
  rfl

/-- Distinct names confuse no lookup. -/
theorem namesResolve_of_nodup (hn : (list.map Task.name).Nodup) :
    NamesResolve list subset where
  deps _ _ _ _ _ _ hd := findTask_of_nameOf hn hd
  dependents x _ j hj := by
    obtain ⟨d, hd, hf⟩ := Option.bind_eq_some_iff.mp hj
    obtain ⟨i, hi, hni⟩ := findTaskIndex_some hf
    have hfi := findTask_of_nameOf hn hni
    rw [findTask_of_nameOf hn hd] at hfi
    rw [hi, ← hfi]

theorem parseManifest_namesakes :
    parseManifest (ascii "task a \x7b\n\x7d\ntask a \x7b\n\x7d\ntask b \x7b\n deps = a\n\x7d\n") =
      [{ taskNew (ascii "a") with dependents := [2] }, taskNew (ascii "a"),
        { taskNew (ascii "b") with deps := [ascii "a"] }] := by
  rw [Bytes.ascii_ofList]
  decide +kernel

end ReproVM
