/-
# The reverse edges, cell by cell

The last loops of `parse_manifest` give every task a block that grows by one cell for each entry
appended to it, whichever task the outer loop is at.  Here these blocks are cells in memory, with
every store checked against the size of its block.  The loops do on the cells what
`buildDependents` does on lists (`buildDependentsIn_eq`), so the lists a manifest ends with are the
entries of the `deps`, turned round: each as often as it is there, and in the order of the
manifest.
-/
import ReproVM.TopoSort

namespace ReproVM

variable {list : TaskList} {t : TaskPtr}

/-! ## 1. The blocks -/

/-- `dependents` and `n_dependents` of a task: the cells of the block, none for NULL. -/
structure DependentCells where
  cells : List TaskPtr
  nDependents : Nat

namespace DependentCells

/-- `realloc(dependents, sizeof(Task*) * n)`; what a new cell holds is not said. -/
def realloc (garbage : Nat → TaskPtr) (x : DependentCells) (n : Nat) : DependentCells :=
  { x with cells := (List.range n).map fun i => x.cells.getD i (garbage i) }

/-- `dependents[n_dependents++] = t` -/
def append (x : DependentCells) (t : TaskPtr) : Except Fault DependentCells :=
  if x.nDependents < x.cells.length then
    .ok ⟨x.cells.set x.nDependents t, x.nDependents + 1⟩
  else .error .bufferOverflow

/-- A block whose cells are all in use. -/
def full (xs : List TaskPtr) : DependentCells := ⟨xs, xs.length⟩

theorem realloc_full (garbage : Nat → TaskPtr) (xs : List TaskPtr) :
    (full xs).realloc garbage (xs.length + 1) = ⟨xs ++ [garbage xs.length], xs.length⟩ := by
  rw [realloc, full, List.range_succ, List.map_append, List.map_singleton]
  congr 2
  · exact List.ext_getElem (by simp) fun i h1 h2 => by simp [List.getElem?_eq_getElem h2]
  · simp

/-- The next cell is there when it is written. -/
theorem append_realloc_full (garbage : Nat → TaskPtr) (xs : List TaskPtr) (t : TaskPtr) :
    ((full xs).realloc garbage (xs.length + 1)).append t = .ok (full (xs ++ [t])) := by
  rw [realloc_full, append, if_pos (by simp), List.set_append_right _ _ (Nat.le_refl _)]
  simp [full]

end DependentCells

/-- One entry of the `deps` of task `i`. -/
def linkDepIn (garbage : TaskPtr → Nat → TaskPtr) (list : TaskList) (i : TaskPtr)
    (h : TaskPtr → DependentCells) (d : Bytes) : Except Fault (TaskPtr → DependentCells) :=
  match findTask list d with
  | some dep => do
    let x := (h dep).realloc (garbage dep) ((h dep).nDependents + 1)
    return Function.update h dep (← x.append i)
  | none => .ok h

/-- The two loops of `parse_manifest` that build the reverse edges, from whatever the structs
hold. -/
def buildDependentsIn (garbage : TaskPtr → Nat → TaskPtr) (list : TaskList)
    (h₀ : TaskPtr → DependentCells) : Except Fault (TaskPtr → DependentCells) :=
  let h := (List.range list.length).foldl (fun h i => Function.update h i ⟨[], 0⟩) h₀
  (List.range list.length).foldlM
    (fun h i => (depsOf list i).foldlM (linkDepIn garbage list i) h) h

/-! ## 2. What the blocks hold -/

/-- The block of each task of the list holds what `g` says, and nothing else. -/
def BlocksHold (list : TaskList) (g : TaskPtr → List TaskPtr)
    (h : TaskPtr → DependentCells) : Prop :=
  ∀ t < list.length, h t = .full (g t)

theorem blocksHold_init (h₀ : TaskPtr → DependentCells) :
    BlocksHold list (fun _ => [])
      ((List.range list.length).foldl (fun h i => Function.update h i ⟨[], 0⟩) h₀) := by
  have hrun : ∀ n, ∀ t < n,
      (List.range n).foldl (fun h i => Function.update h i ⟨[], 0⟩) h₀ t = .full [] := by
    intro n
    induction n with
    | zero => exact fun t ht => absurd ht (Nat.not_lt_zero t)
    | succ n ih =>
      intro t ht
      rw [List.range_succ, List.foldl_append, List.foldl_cons, List.foldl_nil]
      by_cases htn : t = n
      · rw [htn, Function.update_self]
        rfl
      · rw [Function.update_of_ne htn]
        exact ih t (by omega)
  exact hrun list.length

/-- **The entries of one task**: each block gets those that lead to its task. -/
theorem blocksHold_deps (garbage : TaskPtr → Nat → TaskPtr) (i : TaskPtr) (deps : List Bytes)
    {g : TaskPtr → List TaskPtr} {h : TaskPtr → DependentCells} (hh : BlocksHold list g h) :
    ∃ h', deps.foldlM (linkDepIn garbage list i) h = .ok h' ∧
      BlocksHold list (fun t => g t ++ edgesTo list t i deps) h' := by
  induction deps generalizing g h with
  | nil => exact ⟨h, rfl, by simpa [edgesTo] using hh⟩
  | cons d deps ih =>
    rw [List.foldlM_cons, linkDepIn]
    cases hf : findTask list d with
    | none =>
      obtain ⟨h', hrun, hh'⟩ := ih hh
      exact ⟨h', hrun, by simpa [edgesTo, hf] using hh'⟩
    | some dep =>
      have hdep : h dep = .full (g dep) := hh dep (findTask_lt hf)
      have hstep : BlocksHold list (fun t => if t = dep then g t ++ [i] else g t)
          (Function.update h dep (.full (g dep ++ [i]))) := by
        intro t ht
        by_cases htd : t = dep
        · simp [htd]
        · simpa [htd] using hh t ht
      obtain ⟨h', hrun, hh'⟩ := ih hstep
      refine ⟨h', ?_, ?_⟩
      · have happ := DependentCells.append_realloc_full (garbage dep) (g dep) i
        simp only [hdep]
        rw [show (DependentCells.full (g dep)).nDependents = (g dep).length from rfl, happ]
        exact hrun
      · have hg : (fun t => (if t = dep then g t ++ [i] else g t) ++ edgesTo list t i deps)
            = fun t => g t ++ edgesTo list t i (d :: deps) := by
          funext t
          by_cases htd : t = dep
          · simp [edgesTo, hf, htd]
          · simp [edgesTo, hf, htd, Ne.symm htd]
        rwa [hg] at hh'

/-- **The loops on the cells** never leave a block, and fill it with the reverse edges. -/
theorem buildDependentsIn_eq (garbage : TaskPtr → Nat → TaskPtr) (list : TaskList)
    (h₀ : TaskPtr → DependentCells) :
    ∃ h, buildDependentsIn garbage list h₀ = .ok h ∧ BlocksHold list (reverseEdges list) h := by
  have hrun : ∀ n, ∃ h,
      (List.range n).foldlM (fun h i => (depsOf list i).foldlM (linkDepIn garbage list i) h)
          ((List.range list.length).foldl (fun h i => Function.update h i ⟨[], 0⟩) h₀) = .ok h ∧
        BlocksHold list
          (fun t => (List.range n).flatMap fun i => edgesTo list t i (depsOf list i)) h := by
    intro n
    induction n with
    | zero => exact ⟨_, rfl, blocksHold_init h₀⟩
    | succ n ih =>
      obtain ⟨h, hrun, hh⟩ := ih
      obtain ⟨h', hrun', hh'⟩ := blocksHold_deps garbage n (depsOf list n) hh
      refine ⟨h', ?_, ?_⟩
      · rw [List.range_succ, List.foldlM_append, hrun]
        simp only [List.foldlM_cons, List.foldlM_nil, bind, Except.bind, hrun']
        rfl
      · simpa [List.range_succ] using hh'
  exact hrun list.length

/-! ## 3. The lists a manifest ends with -/

/-- **The order of the manifest.** -/
theorem reverseEdges_sorted (list : TaskList) (t : TaskPtr) :
    (reverseEdges list t).Pairwise (· ≤ ·) := by
  have hmem : ∀ i x, x ∈ edgesTo list t i (depsOf list i) → x = i := by
    intro i x hx
    obtain ⟨d, -, rfl⟩ := List.mem_map.mp hx
    rfl
  rw [reverseEdges, List.pairwise_flatMap]
  constructor
  · intro i _
    have hall := List.pairwise_of_forall (l := edgesTo list t i (depsOf list i))
      (R := fun _ _ => True) fun _ _ => trivial
    refine hall.imp_of_mem ?_
    intro x y hx hy _
    rw [hmem i x hx, hmem i y hy]
  · refine List.pairwise_lt_range.imp ?_
    intro i j hij x hx y hy
    rw [hmem i x hx, hmem j y hy]
    exact Nat.le_of_lt hij

/-- The lists of dependents, and the structs that hold them, are the `deps` turned round. -/
structure InverseEdges (list : TaskList) (h : TaskPtr → DependentCells) : Prop where
  cells : ∀ t < list.length, (h t).cells = dependentsOf list t
  length : ∀ t < list.length, (h t).nDependents = (dependentsOf list t).length
  count : ∀ t < list.length, ∀ u < list.length,
    (dependentsOf list t).count u = (depsOf list u).countP fun d => findTask list d = some t
  tasks : ∀ t, ∀ u ∈ dependentsOf list t, u < list.length
  sorted : ∀ t, (dependentsOf list t).Pairwise (· ≤ ·)

/-- **`parse_manifest` turns the `deps` round**, for any text. -/
theorem parseManifest_inverse (content : Bytes) (garbage : TaskPtr → Nat → TaskPtr)
    (h₀ : TaskPtr → DependentCells) :
    ∃ h, buildDependentsIn garbage (parseTasks content) h₀ = .ok h ∧
      InverseEdges (parseManifest content) h := by
  obtain ⟨h, hrun, hh⟩ := buildDependentsIn_eq garbage (parseTasks content) h₀
  have hlen : (parseManifest content).length = (parseTasks content).length :=
    buildDependents_length _
  have hblock : ∀ t < (parseManifest content).length,
      h t = .full (dependentsOf (parseManifest content) t) := by
    intro t ht
    rw [hlen] at ht
    rw [hh t ht, parseManifest, dependentsOf_buildDependents ht]
  refine ⟨h, hrun, ?_, ?_, fun t _ u _ => parseManifest_wellLinked content t u, ?_, ?_⟩
  · intro t ht
    rw [hblock t ht]
    rfl
  · intro t ht
    rw [hblock t ht]
    rfl
  · intro t u hu
    -- an entry of the list of `t` is an entry of the `deps` of `u`
    have hpos := List.count_pos_iff.mpr hu
    rw [parseManifest_wellLinked content t u] at hpos
    obtain ⟨d, hd, -⟩ := List.countP_pos_iff.mp hpos
    by_contra hout
    rw [depsOf, List.getElem?_eq_none (Nat.le_of_not_lt hout)] at hd
    cases hd
  · intro t
    by_cases ht : t < (parseManifest content).length
    · rw [parseManifest, dependentsOf_buildDependents (by rwa [hlen] at ht)]
      exact reverseEdges_sorted _ t
    · rw [dependentsOf_of_le (Nat.le_of_not_lt ht)]
      exact List.Pairwise.nil

end ReproVM
