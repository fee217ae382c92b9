/-
# Kahn's algorithm in `topo_sort`

For a task `x` the loop counts down an `indegree`; what it has to count is `remDeps`, the entries
of its `deps` whose task is in the subset and not yet in the result.  Taking a task off the queue
lowers both by the same number (`remDeps_append`), because `parse_manifest` made the reverse edges
exact (`WellLinked`).  The initial count is by name and `find_task` gives the first task of a
name, so `indegree` starts at least at `remDeps`, and equal to it when names are distinct: the
arrays never overflow for any manifest, and the result is complete and in order for an acyclic
one.
-/
import ReproVM.Collect

namespace ReproVM

open Bytes (ascii)
open Lib (PostOrder release released)
open Relation

variable {list : TaskList}

/-! ## 1. The reverse edges -/

/-- The entries of the `deps` of `x` that `find_task` resolves to `u`. -/
def edgeCount (list : TaskList) (u x : TaskPtr) : Nat :=
  (depsOf list x).countP fun d => findTask list d = some u

/-- Every task is listed in the `dependents` of another as often as it names it. -/
def WellLinked (list : TaskList) : Prop :=
  ∀ u x, (dependentsOf list u).count x = edgeCount list u x

theorem count_edgesTo (u i x : TaskPtr) (deps : List Bytes) :
    (edgesTo list u i deps).count x =
      if i = x then deps.countP fun d => findTask list d = some u else 0 := by
  rw [edgesTo, List.map_const', List.count_replicate, List.countP_eq_length_filter]
  by_cases h : i = x <;> simp [h]

theorem count_reverseEdges (u x : TaskPtr) : (reverseEdges list u).count x = edgeCount list u x := by
  have hrun : ∀ n, ((List.range n).flatMap fun i => edgesTo list u i (depsOf list i)).count x =
      if x < n then edgeCount list u x else 0 := by
    intro n
    induction n with
    | zero => simp
    | succ n ih =>
      rw [List.range_succ, List.flatMap_append, List.count_append, ih, List.flatMap_singleton,
        count_edgesTo]
      by_cases hx : n = x
      · subst hx
        simp [edgeCount]
      · rw [if_neg hx]
        by_cases hlt : x < n
        · rw [if_pos hlt, if_pos (Nat.lt_succ_of_lt hlt)]
          rfl
        · rw [if_neg hlt, if_neg fun h => hx (Nat.le_antisymm (Nat.le_of_not_lt hlt)
            (Nat.le_of_lt_succ h))]
  rw [reverseEdges, hrun]
  split
  · rfl
  · rename_i h
    have : depsOf list x = [] := by
      rw [depsOf, List.getElem?_eq_none (Nat.le_of_not_lt h)]
      rfl
    simp [edgeCount, this]

/-- What a task declares is not touched by the reverse edges. -/
theorem depsOf_congr {l l' : TaskList} (h : l.map Task.decl = l'.map Task.decl) (t : TaskPtr) :
    depsOf l t = depsOf l' t := by
  have hd : ∀ l : TaskList, depsOf l t = (((l.map Task.decl)[t]?).map TaskDecl.deps).getD [] := by
    intro l
    rw [List.getElem?_map, Option.map_map]
    rfl
  rw [hd, hd, h]

theorem map_name_of_map_decl {l l' : TaskList} (h : l.map Task.decl = l'.map Task.decl) :
    l.map Task.name = l'.map Task.name := by
  have := congrArg (List.map TaskDecl.name) h
  simpa [Function.comp_def, Task.decl] using this

theorem edgeCount_congr {l l' : TaskList} (h : l.map Task.decl = l'.map Task.decl) (u x : TaskPtr) :
    edgeCount l u x = edgeCount l' u x := by
  rw [edgeCount, edgeCount, depsOf_congr h]
  simp only [findTask_congr (map_name_of_map_decl h)]

/-- **`parse_manifest` links the tasks.** -/
theorem parseManifest_wellLinked (content : Bytes) : WellLinked (parseManifest content) := by
  intro u x
  have hdecl := buildDependents_map_decl (parseTasks content)
  rw [parseManifest, edgeCount_congr hdecl]
  by_cases hu : u < (parseTasks content).length
  · rw [dependentsOf_buildDependents hu]
    exact count_reverseEdges u x
  · have hle : (buildDependents (parseTasks content)).length ≤ u := by
      rw [buildDependents_length]
      exact Nat.le_of_not_lt hu
    rw [dependentsOf_of_le hle, List.count_nil, edgeCount, List.countP_eq_zero.mpr]
    intro d _
    rw [decide_eq_true_eq]
    exact fun h => hu (findTask_lt h)

/-! ## 2. What is left to wait for -/

/-- The entries of the `deps` of `x` whose task is in the subset and not in `done`. -/
def remDeps (list : TaskList) (subset done : List TaskPtr) (x : TaskPtr) : Nat :=
  (depsOf list x).countP fun d =>
    match findTask list d with
    | some u => decide (u ∈ subset ∧ u ∉ done)
    | none => false

theorem countP_add {α : Type*} {p q r : α → Bool} (l : List α)
    (h : ∀ a, p a = (q a || r a)) (hd : ∀ a, q a = true → r a = false) :
    l.countP p = l.countP q + l.countP r := by
  induction l with
  | nil => rfl
  | cons a l ih =>
    rw [List.countP_cons, List.countP_cons, List.countP_cons, ih, h]
    cases hq : q a with
    | true =>
      rw [hd a hq]
      simp
      omega
    | false =>
      cases r a <;> simp
      omega

/-- **One task done.** -/
theorem remDeps_append {subset done : List TaskPtr} {t : TaskPtr} (ht : t ∈ subset)
    (htd : t ∉ done) (x : TaskPtr) :
    remDeps list subset done x = remDeps list subset (done ++ [t]) x + edgeCount list t x := by
  refine countP_add _ (fun d => ?_) (fun d hd => ?_)
  · cases hf : findTask list d with
    | none => simp
    | some u =>
      by_cases hu : u = t
      · subst hu
        simp [ht, htd]
      · simp [hu]
  · cases hf : findTask list d with
    | none => simp
    | some u =>
      simp only [hf, List.mem_append, List.mem_singleton, decide_eq_true_eq] at hd
      simpa using fun h => hd.2 (.inr h)

theorem remDeps_pos {subset done : List TaskPtr} {x : TaskPtr} :
    0 < remDeps list subset done x ↔ ∃ u ∈ subset, u ∉ done ∧ ∃ d ∈ depsOf list x,
      findTask list d = some u := by
  rw [remDeps, List.countP_pos_iff]
  constructor
  · rintro ⟨d, hd, h⟩
    cases hf : findTask list d with
    | none => simp [hf] at h
    | some u =>
      simp only [hf, decide_eq_true_eq] at h
      exact ⟨u, h.1, h.2, d, hd, hf⟩
  · rintro ⟨u, hu, hud, d, hd, hf⟩
    exact ⟨d, hd, by simp [hf, hu, hud]⟩

/-! ## 3. The initial count -/

theorem foldl_update_if (i : TaskPtr) (p : TaskPtr → Prop) [DecidablePred p] (l : List TaskPtr)
    (f : TaskPtr → Int) :
    l.foldl (fun f j => if p j then Function.update f i (f i + 1) else f) f
      = Function.update f i (f i + ((l.countP fun j => p j : Nat) : Int)) := by
  induction l generalizing f with
  | nil => simp
  | cons j l ih =>
    rw [List.foldl_cons, ih, List.countP_cons]
    by_cases h : p j
    · simp only [h, if_true, Function.update_self, Function.update_idem, decide_true]
      congr 1
      push_cast
      omega
    · simp [h]

theorem foldl_update_add (i : TaskPtr) (c : Bytes → Nat) (l : List Bytes) (f : TaskPtr → Int) :
    l.foldl (fun f d => Function.update f i (f i + ((c d : Nat) : Int))) f
      = Function.update f i (f i + (((l.map c).sum : Nat) : Int)) := by
  induction l generalizing f with
  | nil => simp
  | cons d l ih =>
    rw [List.foldl_cons, ih, Function.update_self, Function.update_idem, List.map_cons,
      List.sum_cons]
    congr 1
    push_cast
    omega

theorem foldl_update_nodup (c : TaskPtr → Nat) {l : List TaskPtr} (hl : l.Nodup)
    (f : TaskPtr → Int) (x : TaskPtr) :
    l.foldl (fun f i => Function.update f i (f i + ((c i : Nat) : Int))) f x
      = f x + if x ∈ l then (c x : Int) else 0 := by
  induction l generalizing f with
  | nil => simp
  | cons i l ih =>
    obtain ⟨hi, hl⟩ := List.nodup_cons.mp hl
    rw [List.foldl_cons, ih hl]
    by_cases hx : x = i
    · subst hx
      simp [hi]
    · rw [Function.update_of_ne hx]
      simp [hx]

/-- The tasks of the subset that the entries of `deps` name. -/
def nameCount (list : TaskList) (subset : List TaskPtr) (x : TaskPtr) : Nat :=
  ((depsOf list x).map fun d => subset.countP fun j => nameOf list j = some d).sum

theorem initIndegree_eq {subset : List TaskPtr} (hs : subset.Nodup) {x : TaskPtr} (hx : x ∈ subset) :
    initIndegree list subset x = nameCount list subset x := by
  simp only [initIndegree, foldl_update_if, foldl_update_add]
  have h := foldl_update_nodup (nameCount list subset) hs (fun _ => 0) x
  rw [if_pos hx, zero_add] at h
  exact h

theorem nameOf_of_findTask {d : Bytes} {u : TaskPtr} (h : findTask list d = some u) :
    nameOf list u = some d := by
  obtain ⟨hu, hn, -⟩ := findTask_eq_some.mp h
  rw [nameOf, List.getElem?_eq_getElem hu, Option.map_some, hn]

theorem findTask_of_nameOf (hn : (list.map Task.name).Nodup) {d : Bytes} {u : TaskPtr}
    (h : nameOf list u = some d) : findTask list d = some u := by
  obtain ⟨t, ht, rfl⟩ := Option.map_eq_some_iff.mp h
  obtain ⟨hu, rfl⟩ := List.getElem?_eq_some_iff.mp ht
  exact findTask_name hn hu

/-- The count starts at least at what there is to count. -/
theorem remDeps_le_nameCount (subset : List TaskPtr) (x : TaskPtr) :
    remDeps list subset [] x ≤ nameCount list subset x := by
  rw [remDeps, nameCount]
  induction depsOf list x with
  | nil => simp
  | cons d l ih =>
    rw [List.countP_cons, List.map_cons, List.sum_cons]
    have hd : (if (match findTask list d with
          | some u => decide (u ∈ subset ∧ u ∉ ([] : List TaskPtr))
          | none => false) = true then 1 else 0)
        ≤ subset.countP fun j => nameOf list j = some d := by
      cases hf : findTask list d with
      | none => simp
      | some u =>
        by_cases hu : u ∈ subset
        · have : 0 < subset.countP fun j => nameOf list j = some d :=
            List.countP_pos_iff.mpr ⟨u, hu, by simpa using nameOf_of_findTask hf⟩
          have hone : ∀ b : Bool, (if b = true then 1 else 0) ≤ 1 := by decide
          exact le_trans (hone _) this
        · simp [hu]
    omega

/-- With distinct names it is what there is to count. -/
theorem remDeps_eq_nameCount (hn : (list.map Task.name).Nodup) {subset : List TaskPtr}
    (hs : subset.Nodup) (x : TaskPtr) : remDeps list subset [] x = nameCount list subset x := by
  rw [remDeps, nameCount]
  induction depsOf list x with
  | nil => simp
  | cons d l ih =>
    rw [List.countP_cons, List.map_cons, List.sum_cons, ih, Nat.add_comm]
    congr 1
    have hiff : ∀ j, nameOf list j = some d ↔ findTask list d = some j := fun j =>
      ⟨findTask_of_nameOf hn, nameOf_of_findTask⟩
    simp only [hiff]
    cases hf : findTask list d with
    | none => simp
    | some u =>
      have hcount : subset.countP (fun j => decide (some u = some j)) = subset.count u := by
        rw [List.count_eq_countP]
        congr 1
        funext j
        by_cases hj : j = u
        · simp [hj]
        · simp [hj, Ne.symm hj]
      rw [hcount]
      by_cases hu : u ∈ subset
      · simp [hu, List.count_eq_one_of_mem hs hu]
      · simp [hu, List.count_eq_zero_of_not_mem hu]

/-! ## 4. Kahn's loop -/

/-- What holds whenever the loop looks at its queue. -/
structure KahnInv (list : TaskList) (subset : List TaskPtr) (s : Kahn) : Prop where
  nodup : (s.result ++ s.queue).Nodup
  sub : ∀ x ∈ s.result ++ s.queue, x ∈ subset
  le : ∀ x ∈ subset, (remDeps list subset s.result x : Int) ≤ s.indegree x
  zero : ∀ x ∈ subset, s.indegree x = 0 ↔ x ∈ s.result ++ s.queue
  exact : (list.map Task.name).Nodup → ∀ x ∈ subset,
    s.indegree x = remDeps list subset s.result x
  order : (list.map Task.name).Nodup →
    PostOrder (fun x u => DependsOn list x u ∧ u ∈ subset) s.result

theorem KahnInv.length_le {subset : List TaskPtr} {s : Kahn} (h : KahnInv list subset s) :
    s.result.length + s.queue.length ≤ subset.length := by
  rw [← List.length_append]
  exact (h.nodup.subperm h.sub).length_le

/-- The entries of `t->dependents` one after the other: a countdown of the tasks of the subset. -/
theorem foldlM_decreaseIndegree (subset : List TaskPtr) (xs : List TaskPtr) (s : Kahn)
    (h : s.result.length +
      (release s.indegree s.queue (xs.filter (· ∈ subset))).2.length ≤ subset.length) :
    xs.foldlM (decreaseIndegree subset) s =
      .ok { s with
        indegree := (release s.indegree s.queue (xs.filter (· ∈ subset))).1
        queue := (release s.indegree s.queue (xs.filter (· ∈ subset))).2 } := by
  induction xs generalizing s with
  | nil => rfl
  | cons x xs ih =>
    rw [List.foldlM_cons, decreaseIndegree]
    by_cases hx : x ∈ subset
    · rw [List.filter_cons_of_pos (by simpa using hx), release] at h ⊢
      rw [if_neg (by simpa using hx)]
      dsimp only
      split
      · rename_i hz
        rw [if_pos hz] at h
        have hroom : s.result.length + s.queue.length < subset.length := by
          rw [Lib.release_queue] at h
          simp at h
          omega
        rw [if_pos hroom]
        exact ih _ h
      · rename_i hz
        rw [if_neg hz] at h
        exact ih _ h
    · rw [List.filter_cons_of_neg (by simpa using hx)] at h ⊢
      rw [if_pos hx]
      exact ih _ h

/-- The state after a pass that takes `t` off the queue and leaves `queue`. -/
def kahnNext (list : TaskList) (subset : List TaskPtr) (s : Kahn) (t : TaskPtr)
    (queue : List TaskPtr) : Kahn where
  indegree := (release s.indegree queue ((dependentsOf list t).filter (· ∈ subset))).1
  queue := (release s.indegree queue ((dependentsOf list t).filter (· ∈ subset))).2
  result := s.result ++ [t]

/-- **One pass.** -/
theorem KahnInv.next {subset : List TaskPtr} {s : Kahn} (h : KahnInv list subset s)
    (hl : WellLinked list) {t : TaskPtr} {queue : List TaskPtr} (hq : s.queue = t :: queue) :
    KahnInv list subset (kahnNext list subset s t queue) := by
  have hmem : ∀ x, x ∈ s.result ++ s.queue ↔ x ∈ s.result ++ [t] ++ queue := by
    intro x
    simp [hq]
  have hts : t ∈ subset := h.sub t (by simp [hq])
  have htr : t ∉ s.result := by
    have := h.nodup
    rw [hq, List.nodup_append] at this
    exact fun htr => this.2.2 t htr t List.mem_cons_self rfl
  have hcount : ∀ x ∈ subset,
      ((dependentsOf list t).filter (· ∈ subset)).count x = edgeCount list t x := by
    intro x hx
    rw [List.count_filter (by simpa using hx), hl t x]
  have hind : ∀ x ∈ subset, (kahnNext list subset s t queue).indegree x
      = s.indegree x - edgeCount list t x := by
    intro x hx
    rw [← hcount x hx]
    exact Lib.release_counter ..
  have hrem : ∀ x, remDeps list subset s.result x
      = remDeps list subset (s.result ++ [t]) x + edgeCount list t x := remDeps_append hts htr
  have hqueue : (kahnNext list subset s t queue).queue
      = queue ++ released s.indegree ((dependentsOf list t).filter (· ∈ subset)) := by
    dsimp only [kahnNext]
    rw [Lib.release_queue]
  have hresult : (kahnNext list subset s t queue).result = s.result ++ [t] := rfl
  have hrel : ∀ x, x ∈ released s.indegree ((dependentsOf list t).filter (· ∈ subset)) ↔
      x ∈ subset ∧ 0 < s.indegree x ∧ s.indegree x ≤ edgeCount list t x := by
    intro x
    rw [Lib.mem_released]
    by_cases hx : x ∈ subset
    · rw [hcount x hx]
      simp [hx]
    · rw [List.count_eq_zero_of_not_mem (by simp [hx])]
      simp only [hx, false_and, iff_false]
      rintro ⟨h1, h2⟩
      simp at h2
      omega
  have hle := h.le
  have hzero := h.zero
  refine ⟨?_, ?_, fun x hx => ?_, fun x hx => ?_, fun hn x hx => ?_, fun hn => ?_⟩
  · rw [hqueue, hresult, ← List.append_assoc]
    have hold := h.nodup
    rw [hq, ← List.singleton_append, ← List.append_assoc] at hold
    rw [List.nodup_append]
    refine ⟨hold, Lib.nodup_released _ _, ?_⟩
    rintro x hx y hy rfl
    obtain ⟨hxs, hpos, -⟩ := (hrel x).mp hy
    rw [(hzero x hxs).mpr ((hmem x).mpr hx)] at hpos
    omega
  · intro x hx
    rw [hqueue, hresult, ← List.append_assoc, List.mem_append] at hx
    rcases hx with hx | hx
    · exact h.sub x ((hmem x).mpr hx)
    · exact ((hrel x).mp hx).1
  · have h1 := hle x hx
    rw [hind x hx]
    rw [hrem x] at h1
    rw [hresult]
    push_cast at h1
    omega
  · have h1 := hle x hx
    rw [hrem x] at h1
    rw [hind x hx, hqueue, hresult, ← List.append_assoc, List.mem_append, ← hmem x,
      ← hzero x hx, hrel x]
    push_cast at h1
    constructor
    · intro h0
      by_cases hi : s.indegree x = 0
      · exact .inl hi
      · exact .inr ⟨hx, by omega, by omega⟩
    · rintro (hi | ⟨-, hpos, hle'⟩) <;> omega
  · have h1 := h.exact hn x hx
    rw [hrem x] at h1
    rw [hind x hx, h1, hresult]
    push_cast
    omega
  · refine (h.order hn).snoc ?_
    rintro u ⟨hu, hus⟩
    by_contra hur
    have hpos : 0 < remDeps list subset s.result t := remDeps_pos.mpr ⟨u, hus, hur, hu⟩
    have h1 := h.exact hn t hts
    rw [(hzero t hts).mpr (by simp [hq])] at h1
    omega

/-- **The loop ends**, with the queue empty and without an overflow. -/
theorem kahnLoop_total (hl : WellLinked list) {subset : List TaskPtr} {fuel : Nat} {s : Kahn}
    (h : KahnInv list subset s) (hfuel : subset.length < fuel + s.result.length) :
    ∃ s', kahnLoop list subset fuel s = .ok s' ∧ KahnInv list subset s' ∧ s'.queue = [] := by
  induction fuel generalizing s with
  | zero =>
    have := h.length_le
    omega
  | succ fuel ih =>
    rw [kahnLoop]
    cases hq : s.queue with
    | nil => exact ⟨s, rfl, h, hq⟩
    | cons t queue =>
      have hnext := h.next hl hq
      have hlen := h.length_le
      rw [hq, List.length_cons] at hlen
      have hfold := foldlM_decreaseIndegree subset (dependentsOf list t)
        { s with queue := queue, result := s.result ++ [t] } hnext.length_le
      obtain ⟨s', hs', hi', he'⟩ := ih hnext (by simp [kahnNext]; omega)
      refine ⟨s', ?_, hi', he'⟩
      simp only [if_pos (show s.result.length < subset.length by omega), hfold]
      exact hs'

/-- The state the loop starts from. -/
def kahnInit (list : TaskList) (subset : List TaskPtr) : Kahn where
  indegree := initIndegree list subset
  queue := subset.filter (initIndegree list subset · = 0)
  result := []

theorem kahnInv_init {subset : List TaskPtr} (hs : subset.Nodup) :
    KahnInv list subset (kahnInit list subset) where
  nodup := by simpa [kahnInit] using hs.filter _
  sub x hx := by
    simp only [kahnInit, List.nil_append, List.mem_filter] at hx
    exact hx.1
  le x hx := by
    dsimp only [kahnInit]
    rw [initIndegree_eq hs hx]
    exact_mod_cast remDeps_le_nameCount subset x
  zero x hx := by simp [kahnInit, hx]
  exact hn x hx := by
    dsimp only [kahnInit]
    rw [initIndegree_eq hs hx, remDeps_eq_nameCount hn hs]
  order _ := .nil

/-- **`topo_sort` returns**, for any names, with what is left of a finished loop. -/
theorem topoSort_total (hl : WellLinked list) {subset : List TaskPtr} (hs : subset.Nodup) :
    ∃ s, KahnInv list subset s ∧ s.queue = [] ∧
      topoSort list subset =
        .ok (if s.result.length ≠ subset.length then none else some s.result) := by
  have hfuel : subset.length < subset.length + 1 + (kahnInit list subset).result.length := by
    simp [kahnInit]
  obtain ⟨s, hrun, hi, he⟩ := kahnLoop_total hl (kahnInv_init hs) hfuel
  refine ⟨s, hi, he, ?_⟩
  rw [kahnInit] at hrun
  rw [topoSort]
  simp only [hrun]
  rfl

/-- `x` depends on `u`, within the subset. -/
def DependsWithin (list : TaskList) (subset : List TaskPtr) (x u : TaskPtr) : Prop :=
  DependsOn list x u ∧ x ∈ subset ∧ u ∈ subset

theorem DependsWithin.onCycle {subset : List TaskPtr} {x : TaskPtr}
    (h : TransGen (DependsWithin list subset) x x) : OnCycle list x :=
  TransGen.mono (fun _ _ h => h.1) _ _ h

/-- Where the loop stops short, the tasks that are left have a cycle among them. -/
theorem KahnInv.exists_cycle {subset : List TaskPtr} {s : Kahn} (h : KahnInv list subset s)
    (hn : (list.map Task.name).Nodup) (hs : subset.Nodup) (hq : s.queue = [])
    (hlen : s.result.length ≠ subset.length) :
    ∃ x ∈ subset, TransGen (DependsWithin list subset) x x := by
  have hfin : {x | x ∈ subset ∧ x ∉ s.result}.Finite :=
    (List.finite_toSet subset).subset fun x hx => hx.1
  have hne : {x | x ∈ subset ∧ x ∉ s.result}.Nonempty := by
    by_contra hempty
    have hall : subset ⊆ s.result := by
      intro x hx
      by_contra hxr
      exact hempty ⟨x, hx, hxr⟩
    have h1 := (hs.subperm hall).length_le
    have h2 := h.length_le
    omega
  obtain ⟨x, hx, hc⟩ := Lib.exists_cycle (r := DependsWithin list subset) hfin hne (by
    rintro x ⟨hx, hxr⟩
    have hx0 : s.indegree x ≠ 0 := fun h0 => hxr (by simpa [hq] using (h.zero x hx).mp h0)
    have hpos : 0 < remDeps list subset s.result x := by
      have := h.exact hn x hx
      omega
    obtain ⟨u, hu, hur, hd⟩ := remDeps_pos.mp hpos
    exact ⟨u, ⟨hu, hur⟩, hd, hx, hu⟩)
  exact ⟨x, hx.1, hc⟩

/-! ## 5. What `topo_sort` returns -/

/-- An order is returned only without a cycle. -/
theorem not_cycle_of_postOrder {subset order : List TaskPtr} (hperm : order.Perm subset)
    (hpost : PostOrder (fun x u => DependsOn list x u ∧ u ∈ subset) order) :
    ¬ ∃ x ∈ subset, TransGen (DependsWithin list subset) x x := by
  rintro ⟨x, hx, hc⟩
  refine hpost.acyclic (hperm.mem_iff.mpr hx) ?_
  exact TransGen.mono (fun _ _ h => ⟨h.1, h.2.2⟩) _ _ hc

/-- **`topo_sort` is a Kahn sort.**  For tasks of distinct names and a subset without repeated
entries it returns NULL if and only if the dependencies within the subset have a cycle, and
otherwise all tasks of the subset, each after its dependencies in the subset. -/
theorem topoSort_correct (manifest : Bytes) (hn : ((parseManifest manifest).map Task.name).Nodup)
    (subset : List TaskPtr) (hs : subset.Nodup) :
    (topoSort (parseManifest manifest) subset = .ok none ↔
        ∃ x ∈ subset, TransGen (DependsWithin (parseManifest manifest) subset) x x) ∧
      ((¬ ∃ x ∈ subset, TransGen (DependsWithin (parseManifest manifest) subset) x x) →
        ∃ order, topoSort (parseManifest manifest) subset = .ok (some order) ∧
          order.length = subset.length ∧ order.Perm subset ∧
          ∀ before t after, order = before ++ t :: after →
            ∀ u ∈ subset, DependsOn (parseManifest manifest) t u → u ∈ before) := by
  obtain ⟨s, hi, hq, hsort⟩ := topoSort_total (parseManifest_wellLinked manifest) hs
  by_cases hlen : s.result.length = subset.length
  · -- the loop emitted every task
    rw [if_neg (not_not_intro hlen)] at hsort
    have hnodup : s.result.Nodup := by
      have := hi.nodup
      rwa [hq, List.append_nil] at this
    have hperm : s.result.Perm subset :=
      (hnodup.subperm fun x hx => hi.sub x (List.mem_append_left _ hx)).perm_of_length_le
        (Nat.le_of_eq hlen.symm)
    have hno := not_cycle_of_postOrder hperm (hi.order hn)
    constructor
    · rw [hsort]
      exact ⟨fun h => (by cases h), fun h => absurd h hno⟩
    · intro _
      exact ⟨s.result, hsort, hlen, hperm, fun _ _ _ he u hu hd => (hi.order hn).before he ⟨hd, hu⟩⟩
  · rw [if_pos hlen] at hsort
    have hc := hi.exists_cycle hn hs hq hlen
    exact ⟨⟨fun _ => hc, fun _ => hsort⟩, fun hno => absurd hc hno⟩

/-- A subset of two with a dependency outside, one unknown and one that is repeated. -/
theorem topoSort_correct_chain :
    let manifest := ascii "task c \x7b\n deps = b, a, x, b\n\x7d\ntask b \x7b\n deps = a\n\x7d\ntask a \x7b\n\x7d\n"
    ∃ order, topoSort (parseManifest manifest) [0, 1] = .ok (some order) ∧ order.length = 2 ∧
      order.Perm [0, 1] ∧ ∀ before t after, order = before ++ t :: after →
        ∀ u ∈ [0, 1], DependsOn (parseManifest manifest) t u → u ∈ before := by
  intro manifest
  refine (topoSort_correct manifest (by decide +kernel) [0, 1] (by decide)).2 ?_
  rintro ⟨x, -, hc⟩
  -- only task 0 has a dependency in the subset, and it is not on task 0
  have hstep : ∀ x u, DependsWithin (parseManifest manifest) [0, 1] x u → x < u := by
    rintro x u ⟨⟨d, hd, hf⟩, hx, hu⟩
    have hall : ∀ x ∈ [0, 1], ∀ u ∈ [0, 1], ∀ d ∈ depsOf (parseManifest manifest) x,
        findTask (parseManifest manifest) d = some u → x < u := by decide +kernel
    exact hall x hx u hu d hd hf
  have hlt : ∀ x u, TransGen (DependsWithin (parseManifest manifest) [0, 1]) x u → x < u := by
    intro x u h
    induction h with
    | single h => exact hstep _ _ h
    | tail _ h ih => exact Nat.lt_trans ih (hstep _ _ h)
  exact absurd (hlt x x hc) (Nat.lt_irrefl x)

end ReproVM
