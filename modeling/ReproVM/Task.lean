/-
# Tasks and the manifest parser

`Task` is the struct of `task.h`; `parse_manifest` is the line dispatcher of `task.c` followed
by the construction of the reverse edges.  A `Task *` is the position of the task in its
`TaskList`, an array with its count is a list, and a NULL string is `none`.
-/
import ReproVM.Util
import Mathlib.Data.List.Nodup

namespace ReproVM

open Bytes (ascii)

/-! ## 1. The data model -/

/-- `task_status_t`. -/
inductive TaskStatus
  | pending
  | running
  | skipped
  | success
  | failed
deriving DecidableEq, Repr

/-- Ended well. -/
def TaskStatus.Good (st : TaskStatus) : Prop := st = .skipped ∨ st = .success

/-- `Task *`: the position of the task in its list. -/
abbrev TaskPtr := Nat

/-- The struct, less `indegree`: only `topo_sort` uses it, and starts by setting it. -/
structure Task where
  name : Bytes
  cmd : Option Bytes
  inputs : List Bytes
  outputs : List Bytes
  deps : List Bytes
  taskHash : Option Bytes
  resultHash : Option Bytes
  status : TaskStatus
  dependents : List TaskPtr
deriving DecidableEq

abbrev TaskList := List Task

/-- `task_new`, with the name the parser sets at once. -/
def taskNew (name : Bytes) : Task where
  name := name
  cmd := none
  inputs := []
  outputs := []
  deps := []
  taskHash := none
  resultHash := none
  status := .pending
  dependents := []

/-- The first task of that name. -/
def findTask (list : TaskList) (name : Bytes) : Option TaskPtr :=
  list.findIdx? fun t => t.name = name

/-- `t->deps`, `t->dependents`, `t->name`. -/
def depsOf (list : TaskList) (t : TaskPtr) : List Bytes := (list[t]?.map Task.deps).getD []

def dependentsOf (list : TaskList) (t : TaskPtr) : List TaskPtr :=
  (list[t]?.map Task.dependents).getD []

def nameOf (list : TaskList) (t : TaskPtr) : Option Bytes := list[t]?.map Task.name

/-! ## 2. `parse_manifest` -/

/-- What the loop over the lines carries: the finished tasks and the open one. -/
structure ParseState where
  tasks : TaskList
  cur : Option Task

/-- The name on a header line: what follows `task ` up to white space or `{`. -/
def headerName (tmp : Bytes) : Bytes :=
  ((tmp.drop 5).dropWhile isspace).takeWhile fun c => ¬ isspace c ∧ c ≠ 123

/-- What follows the first `=` of a field line. -/
def afterEq (tmp : Bytes) : Option Bytes := (strchr tmp 61).map List.tail

/-- A field line with a list value. -/
def listField (tmp : Bytes) : Option (List Bytes) :=
  (afterEq tmp).map fun rest => splitCsvArray (trim rest)

/-- The dispatcher of the loop over the lines, on the trimmed copy `tmp` of a line. -/
def parseTmp (st : ParseState) (tmp : Bytes) : ParseState :=
  if tmp.head? = some 35 ∨ tmp = [] then st
  else if startsWith tmp (ascii "task ") then
    -- an open task that was not closed is dropped here
    { st with cur := some (taskNew (headerName tmp)) }
  else
    -- every branch that is left asks for an open task
    match st.cur with
    | none => st
    | some cur =>
      if startsWith tmp (ascii "cmd") then
        match afterEq tmp with
        | none => st
        | some eq => { st with cur := some { cur with cmd := some (eq.dropWhile isspace) } }
      else if startsWith tmp (ascii "inputs") then
        match listField tmp with
        | none => st
        | some xs => { st with cur := some { cur with inputs := xs } }
      else if startsWith tmp (ascii "outputs") then
        match listField tmp with
        | none => st
        | some xs => { st with cur := some { cur with outputs := xs } }
      else if startsWith tmp (ascii "deps") then
        match listField tmp with
        | none => st
        | some xs => { st with cur := some { cur with deps := xs } }
      else if (strchr tmp 125).isSome then
        { tasks := st.tasks ++ [cur], cur := none }
      else st

/-- One pass of the loop: `tmp` has room for 4095 bytes of the line. -/
def parseLine (st : ParseState) (line : Bytes) : ParseState := parseTmp st (trim (line.take 4095))

/-- The tasks of a manifest before the reverse edges are built. -/
def parseTasks (content : Bytes) : TaskList :=
  let st := (strtokAll 10 (cstr content)).foldl parseLine ⟨[], none⟩
  match st.cur with
  | none => st.tasks
  | some cur => st.tasks ++ [cur]

/-- `dep->dependents[dep->n_dependents++] = t`. -/
def addDependent (list : TaskList) (dep t : TaskPtr) : TaskList :=
  list.modify dep fun x => { x with dependents := x.dependents ++ [t] }

/-- The inner loop of the reverse edges, over the dependencies of task `i`. -/
def linkTask (list : TaskList) (i : TaskPtr) : TaskList :=
  match list[i]? with
  | none => list
  | some t =>
    t.deps.foldl
      (fun l d =>
        match findTask l d with
        | some dep => addDependent l dep i
        | none => l)
      list

/-- The two loops that build the reverse edges. -/
def buildDependents (list : TaskList) : TaskList :=
  (List.range list.length).foldl linkTask (list.map fun t => { t with dependents := [] })

/-- `parse_manifest` on the content of the manifest file. -/
def parseManifest (content : Bytes) : TaskList := buildDependents (parseTasks content)

/-! ## 3. What a task declares -/

/-- The part of a task that the manifest says. -/
structure TaskDecl where
  name : Bytes
  cmd : Option Bytes
  inputs : List Bytes
  outputs : List Bytes
  deps : List Bytes
deriving DecidableEq

def Task.decl (t : Task) : TaskDecl := ⟨t.name, t.cmd, t.inputs, t.outputs, t.deps⟩

/-- Two tasks that declare the same. -/
theorem Task.decl_eq_iff {t u : Task} : t.decl = u.decl ↔ t.name = u.name ∧ t.cmd = u.cmd ∧
    t.inputs = u.inputs ∧ t.outputs = u.outputs ∧ t.deps = u.deps := by
  simp [Task.decl]

/-! ## 4. The reverse edges -/

theorem findTask_congr {l l' : TaskList} (h : l.map Task.name = l'.map Task.name) (d : Bytes) :
    findTask l d = findTask l' d := by
  have hl : ∀ l : TaskList, findTask l d = (l.map Task.name).findIdx? fun n => n = d := by
    intro l
    rw [List.findIdx?_map]
    rfl
  rw [hl, hl, h]

/-- A task that is found has the name and is the first with it. -/
theorem findTask_eq_some {list : TaskList} {d : Bytes} {u : TaskPtr} :
    findTask list d = some u ↔
      ∃ h : u < list.length, list[u].name = d ∧
        ∀ j (hj : j < list.length), j < u → list[j].name ≠ d := by
  rw [findTask, List.findIdx?_eq_some_iff_getElem]
  constructor
  · rintro ⟨hu, hn, hj⟩
    exact ⟨hu, by simpa using hn, fun j _ hju => by simpa using hj j hju⟩
  · rintro ⟨hu, hn, hj⟩
    exact ⟨hu, by simpa using hn, fun j hju => by simpa using hj j (Nat.lt_trans hju hu) hju⟩

theorem findTask_lt {list : TaskList} {d : Bytes} {u : TaskPtr} (h : findTask list d = some u) :
    u < list.length :=
  (findTask_eq_some.mp h).1

/-- With distinct names every task is found by its name. -/
theorem findTask_name {list : TaskList} (hd : (list.map Task.name).Nodup) {u : TaskPtr}
    (hu : u < list.length) : findTask list list[u].name = some u := by
  refine findTask_eq_some.mpr ⟨hu, rfl, fun j hj hju hn => ?_⟩
  have hj' : j < (list.map Task.name).length := by rwa [List.length_map]
  have hu' : u < (list.map Task.name).length := by rwa [List.length_map]
  have hju' : (list.map Task.name)[j] = (list.map Task.name)[u] := by simpa using hn
  have := (List.Nodup.getElem_inj_iff hd).mp hju'
  omega

/-- The entries of `deps` that lead from task `i` to `u`, as the positions the loop appends. -/
def edgesTo (list : TaskList) (u i : TaskPtr) (deps : List Bytes) : List TaskPtr :=
  (deps.filter fun d => findTask list d = some u).map fun _ => i

/-- All positions the loops append to the list of `u`, in order. -/
def reverseEdges (list : TaskList) (u : TaskPtr) : List TaskPtr :=
  (List.range list.length).flatMap fun i => edgesTo list u i (depsOf list i)

/-- `l` is `list` with other `dependents`: task `u` has those of `g u`. -/
def WithDependents (list : TaskList) (g : TaskPtr → List TaskPtr) (l : TaskList) : Prop :=
  l = list.mapIdx fun u t => { t with dependents := g u }

theorem WithDependents.names {list l : TaskList} {g : TaskPtr → List TaskPtr}
    (h : WithDependents list g l) : l.map Task.name = list.map Task.name := by
  rw [h]
  apply List.ext_getElem <;> simp

theorem withDependents_addDependent {list l : TaskList} {g : TaskPtr → List TaskPtr}
    (h : WithDependents list g l) (dep t : TaskPtr) :
    WithDependents list (fun u => if u = dep then g u ++ [t] else g u) (addDependent l dep t) := by
  unfold WithDependents at h ⊢
  subst h
  apply List.ext_getElem
  · simp [addDependent]
  · intro u h1 h2
    simp only [addDependent, List.getElem_modify, List.getElem_mapIdx]
    by_cases hu : dep = u
    · simp [hu]
    · simp [hu, Ne.symm hu]

/-- The inner loop appends exactly the edges of task `i`. -/
theorem withDependents_deps {list : TaskList} (i : TaskPtr) (deps : List Bytes) :
    ∀ {l : TaskList} {g : TaskPtr → List TaskPtr}, WithDependents list g l →
      WithDependents list (fun u => g u ++ edgesTo list u i deps)
        (deps.foldl
          (fun l d =>
            match findTask l d with
            | some dep => addDependent l dep i
            | none => l) l) := by
  induction deps with
  | nil => intro l g h; simpa [edgesTo] using h
  | cons d deps ih =>
    intro l g h
    rw [List.foldl_cons, findTask_congr h.names d]
    cases hf : findTask list d with
    | none =>
      have := ih h
      simpa [edgesTo, hf] using this
    | some dep =>
      have := ih (withDependents_addDependent h dep i)
      have hg : (fun u => (if u = dep then g u ++ [i] else g u) ++ edgesTo list u i deps)
          = fun u => g u ++ edgesTo list u i (d :: deps) := by
        funext u
        by_cases hu : u = dep
        · simp [edgesTo, hf, hu]
        · simp [edgesTo, hf, hu, Ne.symm hu]
      rwa [hg] at this

/-- **The reverse edges.**  After the loops the list of `u` holds, in the order of the
manifest, task `i` once for every entry of its `deps` that `find_task` resolves to `u`. -/
theorem buildDependents_eq (list : TaskList) :
    WithDependents list (reverseEdges list) (buildDependents list) := by
  have hrun : ∀ n, n ≤ list.length →
      WithDependents list
        (fun u => (List.range n).flatMap fun i =>
          edgesTo list u i (depsOf list i))
        ((List.range n).foldl linkTask (list.map fun t => { t with dependents := [] })) := by
    intro n
    induction n with
    | zero =>
      intro _
      unfold WithDependents
      apply List.ext_getElem <;> simp
    | succ n ih =>
      intro hn
      have h := ih (by omega)
      rw [List.range_succ, List.foldl_append]
      simp only [List.foldl_cons, List.foldl_nil, linkTask]
      have hget : ((List.range n).foldl linkTask
          (list.map fun t => { t with dependents := [] }))[n]?.map Task.deps
          = list[n]?.map Task.deps := by
        rw [h, List.getElem?_mapIdx, Option.map_map]
        rfl
      have hl : n < list.length := by omega
      rw [List.getElem?_eq_getElem hl] at hget
      simp only [Option.map_some, Option.map_eq_some_iff] at hget
      obtain ⟨t, ht, htd⟩ := hget
      rw [ht]
      have := withDependents_deps n t.deps h
      simp only [htd] at this ⊢
      have hfm : ∀ u, (List.range (n + 1)).flatMap
          (fun i => edgesTo list u i (depsOf list i))
          = (List.range n).flatMap (fun i => edgesTo list u i (depsOf list i))
            ++ edgesTo list u n list[n].deps := by
        intro u
        rw [List.range_succ, List.flatMap_append]
        simp [depsOf, List.getElem?_eq_getElem hl]
      rw [← List.range_succ]
      simp only [hfm]
      exact this
  exact hrun list.length (Nat.le_refl _)

theorem dependentsOf_buildDependents {list : TaskList} {u : TaskPtr} (hu : u < list.length) :
    dependentsOf (buildDependents list) u = reverseEdges list u := by
  rw [dependentsOf, buildDependents_eq list, List.getElem?_mapIdx, List.getElem?_eq_getElem hu]
  rfl

@[simp] theorem buildDependents_length (list : TaskList) :
    (buildDependents list).length = list.length := by
  rw [buildDependents_eq list, List.length_mapIdx]

theorem dependentsOf_of_le {list : TaskList} {u : TaskPtr} (hu : list.length ≤ u) :
    dependentsOf list u = [] := by
  rw [dependentsOf, List.getElem?_eq_none hu]
  rfl

theorem buildDependents_map_decl (list : TaskList) :
    (buildDependents list).map Task.decl = list.map Task.decl := by
  rw [buildDependents_eq list]
  apply List.ext_getElem <;> simp [Task.decl]

end ReproVM
