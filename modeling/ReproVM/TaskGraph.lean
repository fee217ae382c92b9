/-
# `print_task_graph` prints every task once

The recursion follows names, and only the flags in `visited` stop it: a call on a task that has
not been printed sets one, so the depth is at most the number of flags that are not set
(`printTaskRecursive_spec`).  The flags are the tasks of the lines printed so far (`Printed`),
and what a call prints is a block: its own line, and below it only lines further to the right,
each under the line of a task that depends on it (`Block`).
-/
import ReproVM.Task
import Mathlib.Data.List.GetD
import Mathlib.Data.List.Perm.Basic
import Mathlib.Data.List.Perm.Subperm

namespace ReproVM

open Bytes (ascii)

/-! ## 1. The code -/

/-- A line of the graph: how far it is indented, and the task. -/
structure GraphLine where
  indent : Nat
  task : TaskPtr
deriving DecidableEq

/-- What the calls share: the flags, and the lines printed so far. -/
structure Printing where
  visited : List Bool
  lines : List GraphLine

def statusSymbol : TaskStatus → Bytes
  | .pending => ascii "[ ]"
  | .running => ascii "[~]"
  | .skipped => ascii "[*]"
  | .success => ascii "[" ++ [0xE2, 0x9C, 0x94] ++ ascii "]"
  | .failed => ascii "[X]"

def GraphLine.text (list : TaskList) (line : GraphLine) : Bytes :=
  match list[line.task]? with
  | none => []
  | some t =>
    (List.replicate line.indent (ascii "  ")).flatten ++ statusSymbol t.status ++ ascii " " ++ t.name
      ++ (match t.taskHash with | some hash => ascii " (hash=" ++ hash ++ ascii ")" | none => [])
      ++ (match t.resultHash with | some res => ascii " res=" ++ res | none => []) ++ ascii "\n"

/-- The first task of that name in the array. -/
def findDep (list : TaskList) (all : List TaskPtr) (name : Bytes) : Option TaskPtr :=
  all.find? fun u => nameOf list u = some name

/-- `depth` bounds the recursion; `none` is that it was not enough. -/
def printTaskRecursive (list : TaskList) (all : List TaskPtr) :
    Nat → TaskPtr → Nat → Printing → Option Printing
  | 0, _, _, _ => none
  | depth + 1, t, indent, st =>
    let idx := all.idxOf? t
    if idx.any fun i => st.visited.getD i false then some st
    else
      let visited := match idx with
        | some i => st.visited.set i true
        | none => st.visited
      (depsOf list t).foldlM (fun st name =>
        match findDep list all name with
        | some dep => printTaskRecursive list all depth dep (indent + 1) st
        | none => some st) ⟨visited, st.lines ++ [⟨indent, t⟩]⟩

/-- `is_dep`: another task of the array has the name in its `deps`. -/
def isDep (list : TaskList) (all : List TaskPtr) (i : Nat) : Bool :=
  (List.range all.length).any fun j =>
    j ≠ i && (depsOf list (all.getD j 0)).any fun d => nameOf list (all.getD i 0) = some d

def graphLines (depth : Nat) (list : TaskList) (all : List TaskPtr) : Option (List GraphLine) := do
  let st ← (List.range all.length).foldlM (fun st i =>
    if isDep list all i then some st else printTaskRecursive list all depth (all.getD i 0) 0 st)
    ⟨List.replicate all.length false, []⟩
  let st ← (List.range all.length).foldlM (fun st i =>
    if st.visited.getD i false then some st
    else printTaskRecursive list all depth (all.getD i 0) 0 st) st
  return st.lines

def graphText (list : TaskList) (lines : List GraphLine) : Bytes :=
  ascii "=== Task Graph ===\n" ++ (lines.map (GraphLine.text list)).flatten ++
    ascii "==================\n"

def printTaskGraph (depth : Nat) (list : TaskList) (all : List TaskPtr) : Option Bytes :=
  (graphLines depth list all).map (graphText list)

/-! ## 2. Blocks of lines -/

section Block

variable {list : TaskList} {k : Nat} {t : TaskPtr} {top : TaskPtr → Prop}
  {line : GraphLine} {pre lines lines' : List GraphLine}

/-- `line` comes after the line of a task that has its task in its `deps`, one step to the left,
and everything in between is at least as far to the right as `line`. -/
def Enclosed (list : TaskList) (pre : List GraphLine) (line : GraphLine) : Prop :=
  ∃ outer parent inner, pre = outer ++ parent :: inner ∧ parent.indent + 1 = line.indent ∧
    (∀ l ∈ inner, line.indent ≤ l.indent) ∧
    ∃ name ∈ depsOf list parent.task, nameOf list line.task = some name

/-- Every line to the right of `k` is enclosed. -/
def Nested (list : TaskList) (k : Nat) (lines : List GraphLine) : Prop :=
  ∀ pre line post, lines = pre ++ line :: post → k < line.indent → Enclosed list pre line

/-- What a loop of calls at indentation `k` prints; `top` is what they are called on. -/
structure Block (list : TaskList) (k : Nat) (top : TaskPtr → Prop) (lines : List GraphLine) :
    Prop where
  le : ∀ l ∈ lines, k ≤ l.indent
  top : ∀ l ∈ lines, l.indent = k → top l.task
  nested : Nested list k lines

theorem Enclosed.append (h : Enclosed list pre line) (lines : List GraphLine) :
    Enclosed list (lines ++ pre) line := by
  obtain ⟨outer, parent, inner, rfl, hind, hinner, hdep⟩ := h
  exact ⟨lines ++ outer, parent, inner, (List.append_assoc ..).symm, hind, hinner, hdep⟩

theorem Nested.append (h : Nested list k lines) (h' : Nested list k lines') :
    Nested list k (lines ++ lines') := by
  intro pre line post heq hk
  rcases List.append_eq_append_iff.mp heq with ⟨as, rfl, rfl⟩ | ⟨bs, rfl, hbs⟩
  · exact (h' as line post rfl hk).append lines
  · cases bs with
    | nil => exact List.append_nil pre ▸ (h' [] line post hbs.symm hk).append pre
    | cons b bs =>
      obtain ⟨rfl, -⟩ := List.cons.inj hbs
      exact h pre line bs rfl hk

theorem Block.nil : Block list k top [] :=
  ⟨by simp, by simp, fun pre line post h => absurd h (by simp)⟩

theorem Block.append (h : Block list k top lines) (h' : Block list k top lines') :
    Block list k top (lines ++ lines') where
  le l hl := (List.mem_append.mp hl).elim (h.le l) (h'.le l)
  top l hl := (List.mem_append.mp hl).elim (h.top l) (h'.top l)
  nested := h.nested.append h'.nested

/-- The line of a call, and the lines of the calls on its dependencies. -/
theorem Block.node
    (h : Block list (k + 1) (fun u => ∃ name ∈ depsOf list t, nameOf list u = some name) lines) :
    Block list k (· = t) (⟨k, t⟩ :: lines) := by
  refine ⟨fun l hl => ?_, fun l hl hk => ?_, fun pre line post heq hk => ?_⟩
  · rcases List.mem_cons.mp hl with rfl | hl
    · exact Nat.le_refl k
    · exact Nat.le_of_succ_le (h.le l hl)
  · rcases List.mem_cons.mp hl with rfl | hl
    · rfl
    · exact absurd (h.le l hl) (by omega)
  · cases pre with
    | nil =>
      obtain ⟨rfl, -⟩ := List.cons.inj heq
      exact absurd hk (Nat.lt_irrefl k)
    | cons p pre =>
      obtain ⟨rfl, rfl⟩ := List.cons.inj heq
      rcases Nat.lt_or_eq_of_le hk with hdeep | hnext
      · exact (h.nested pre line post rfl hdeep).append [⟨k, t⟩]
      · refine ⟨[], ⟨k, t⟩, pre, rfl, hnext, fun l hl => ?_, h.top line (by simp) hnext.symm⟩
        rw [← hnext]
        exact h.le l (List.mem_append_left _ hl)

theorem Block.imp {top' : TaskPtr → Prop} (h : Block list k top lines)
    (htop : ∀ u, top u → top' u) : Block list k top' lines :=
  ⟨h.le, fun l hl hk => htop _ (h.top l hl hk), h.nested⟩

end Block

/-! ## 3. One call -/

section Call

variable {list : TaskList} {all : List TaskPtr} {t : TaskPtr} {k m : Nat} {top : TaskPtr → Prop}
  {st st' st'' : Printing}

/-- The tasks that have a line. -/
def Printing.tasks (st : Printing) : List TaskPtr := st.lines.map GraphLine.task

/-- No task has two lines, and the flags say which have one. -/
structure Printed (all : List TaskPtr) (st : Printing) : Prop where
  length : st.visited.length = all.length
  nodup : st.tasks.Nodup
  subset : st.tasks ⊆ all
  visited : ∀ i < all.length, st.visited.getD i false = true ↔ all.getD i 0 ∈ st.tasks

/-- From one state of the printing to a later one, by calls at indentation `k`. -/
structure Grown (list : TaskList) (all : List TaskPtr) (k : Nat) (top : TaskPtr → Prop)
    (st st' : Printing) : Prop where
  printed : Printed all st'
  unvisited : st'.visited.count false ≤ st.visited.count false
  block : ∃ lines, st'.lines = st.lines ++ lines ∧ Block list k top lines

theorem Grown.refl (h : Printed all st) : Grown list all k top st st :=
  ⟨h, Nat.le_refl _, [], (List.append_nil _).symm, Block.nil⟩

theorem Grown.trans (h : Grown list all k top st st') (h' : Grown list all k top st' st'') :
    Grown list all k top st st'' := by
  obtain ⟨lines, hl, hb⟩ := h.block
  obtain ⟨lines', hl', hb'⟩ := h'.block
  refine ⟨h'.printed, h'.unvisited.trans h.unvisited, lines ++ lines', ?_, hb.append hb'⟩
  rw [hl', hl, List.append_assoc]

theorem Grown.imp {top' : TaskPtr → Prop} (h : Grown list all k top st st')
    (htop : ∀ u, top u → top' u) : Grown list all k top' st st' := by
  obtain ⟨lines, hl, hb⟩ := h.block
  exact ⟨h.printed, h.unvisited, lines, hl, hb.imp htop⟩

theorem Grown.tasks (h : Grown list all k top st st') : st.tasks ⊆ st'.tasks := by
  obtain ⟨lines, hl, -⟩ := h.block
  rw [Printing.tasks, Printing.tasks, hl, List.map_append]
  exact List.subset_append_left ..

theorem getD_inj (hall : all.Nodup) {i j : Nat} (hi : i < all.length) (hj : j < all.length) :
    all.getD i 0 = all.getD j 0 ↔ i = j := by
  rw [List.getD_eq_getElem _ _ hi, List.getD_eq_getElem _ _ hj]
  exact hall.getElem_inj_iff

theorem getD_mem {i : Nat} (hi : i < all.length) : all.getD i 0 ∈ all := by
  rw [List.getD_eq_getElem _ _ hi]
  exact List.getElem_mem hi

theorem idxOf?_getD (hall : all.Nodup) {i : Nat} (hi : i < all.length) :
    all.idxOf? (all.getD i 0) = some i := by
  refine List.idxOf?_eq_some_iff.mpr ⟨hi, (List.getD_eq_getElem _ _ hi).symm, fun j hji hj => ?_⟩
  have hlt := Nat.lt_trans hji hi
  refine absurd ((getD_inj hall hlt hi).mp ?_) (Nat.ne_of_lt hji)
  rw [← hj, List.getD_eq_getElem _ _ hlt]

theorem Printed.unvisited (h : Printed all st) {i : Nat} (hi : i < all.length)
    (hnew : all.getD i 0 ∉ st.tasks) : st.visited.getD i false = false :=
  Bool.eq_false_iff.mpr (mt (h.visited i hi).mp hnew)

/-- A task without a line: its flag is set and its line is printed. -/
theorem Printed.visit (hall : all.Nodup) (h : Printed all st) {i : Nat} (hi : i < all.length)
    (hnew : all.getD i 0 ∉ st.tasks) (k : Nat) :
    Printed all ⟨st.visited.set i true, st.lines ++ [⟨k, all.getD i 0⟩]⟩ := by
  have htasks : Printing.tasks ⟨st.visited.set i true, st.lines ++ [⟨k, all.getD i 0⟩]⟩
      = st.tasks ++ [all.getD i 0] := by simp [Printing.tasks]
  refine ⟨by rw [List.length_set, h.length], ?_, ?_, fun j hj => ?_⟩
  · rw [htasks, List.nodup_append]
    refine ⟨h.nodup, by simp, ?_⟩
    rintro t ht u hu rfl
    exact hnew (by rwa [← List.mem_singleton.mp hu])
  · rw [htasks]
    refine List.append_subset.mpr ⟨h.subset, fun u hu => ?_⟩
    rw [List.mem_singleton.mp hu]
    exact getD_mem hi
  · rw [htasks, List.mem_append, List.mem_singleton, getD_inj hall hj hi, ← h.visited j hj]
    rcases eq_or_ne j i with rfl | hji
    · simp [List.getD_eq_getElem?_getD, h.length, hj]
    · simp [List.getD_eq_getElem?_getD, List.getElem?_set_ne hji.symm, hji]

theorem Printed.count_lt (h : Printed all st) {i : Nat} (hi : i < all.length)
    (hnew : all.getD i 0 ∉ st.tasks) :
    (st.visited.set i true).count false < st.visited.count false := by
  have hlen : i < st.visited.length := h.length ▸ hi
  have hflag : st.visited[i] = false := by rw [← h.unvisited hi hnew, List.getD_eq_getElem _ _ hlen]
  have hpos : 0 < st.visited.count false := List.count_pos_iff.mpr (hflag ▸ List.getElem_mem hlen)
  rw [List.count_set hlen, hflag, if_pos (by decide), if_neg (by decide)]
  omega

theorem printTaskRecursive_visited (hall : all.Nodup) {i : Nat} (hi : i < all.length)
    (hv : st.visited.getD i false = true) (depth k : Nat) :
    printTaskRecursive list all (depth + 1) (all.getD i 0) k st = some st := by
  rw [printTaskRecursive, idxOf?_getD hall hi]
  exact if_pos hv

theorem printTaskRecursive_fresh (hall : all.Nodup) {i : Nat} (hi : i < all.length)
    (hv : st.visited.getD i false = false) (depth k : Nat) :
    printTaskRecursive list all (depth + 1) (all.getD i 0) k st =
      (depsOf list (all.getD i 0)).foldlM (fun st name =>
        match findDep list all name with
        | some dep => printTaskRecursive list all depth dep (k + 1) st
        | none => some st) ⟨st.visited.set i true, st.lines ++ [⟨k, all.getD i 0⟩]⟩ := by
  rw [printTaskRecursive, idxOf?_getD hall hi]
  exact if_neg (by rw [Option.any_some, hv]; exact Bool.false_ne_true)

/-- A loop of calls: what each of them does, they do together. -/
theorem foldlM_grown {α : Type} {f : Nat → Printing → α → Option Printing} {xs : List α}
    (done : α → TaskPtr → Prop)
    (hf : ∀ x ∈ xs, ∀ st, Printed all st → st.visited.count false ≤ m →
      ∃ st', (∀ depth, m < depth → f depth st x = some st') ∧ Grown list all k top st st' ∧
        ∀ u, done x u → u ∈ st'.tasks)
    (hst : Printed all st) (hm : st.visited.count false ≤ m) :
    ∃ st', (∀ depth, m < depth → xs.foldlM (f depth) st = some st') ∧
      Grown list all k top st st' ∧ ∀ x ∈ xs, ∀ u, done x u → u ∈ st'.tasks := by
  induction xs generalizing st with
  | nil => exact ⟨st, fun _ _ => rfl, Grown.refl hst, by simp⟩
  | cons x xs ih =>
    obtain ⟨st1, hcall, hgrown, hdone⟩ := hf x List.mem_cons_self st hst hm
    obtain ⟨st2, hrest, hgrown', hdone'⟩ := ih (fun y hy => hf y (List.mem_cons_of_mem _ hy))
      hgrown.printed (hgrown.unvisited.trans hm)
    refine ⟨st2, fun depth hd => ?_, hgrown.trans hgrown', fun y hy u hu => ?_⟩
    · rw [List.foldlM_cons, hcall depth hd]
      exact hrest depth hd
    · rcases List.mem_cons.mp hy with rfl | hy
      · exact hgrown'.tasks (hdone u hu)
      · exact hdone' y hy u hu

/-- A call on a task of the array returns as soon as the depth is above the number of flags that
are not set; it prints a block for the task, and the task has a line afterwards. -/
def CallsReturn (list : TaskList) (all : List TaskPtr) (m : Nat) : Prop :=
  ∀ i < all.length, ∀ k st, Printed all st → st.visited.count false ≤ m →
    ∃ st', (∀ depth, m < depth →
        printTaskRecursive list all depth (all.getD i 0) k st = some st') ∧
      Grown list all k (· = all.getD i 0) st st' ∧ all.getD i 0 ∈ st'.tasks

theorem exists_of_findDep {name : Bytes} {u : TaskPtr} (h : findDep list all name = some u) :
    nameOf list u = some name ∧ ∃ i < all.length, all.getD i 0 = u := by
  rw [findDep] at h
  have hname : nameOf list u = some name := by simpa using List.find?_some h
  obtain ⟨i, hi, rfl⟩ := List.getElem_of_mem (List.mem_of_find?_eq_some h)
  exact ⟨hname, i, hi, List.getD_eq_getElem _ _ hi⟩

/-- The loop over the dependencies, from what the calls in it do. -/
theorem CallsReturn.deps (h : CallsReturn list all m) (t : TaskPtr) (k : Nat)
    (hst : Printed all st) (hm : st.visited.count false ≤ m) :
    ∃ st', (∀ depth, m < depth → (depsOf list t).foldlM (fun st name =>
        match findDep list all name with
        | some dep => printTaskRecursive list all depth dep k st
        | none => some st) st = some st') ∧
      Grown list all k (fun u => ∃ name ∈ depsOf list t, nameOf list u = some name) st st' := by
  have hone : ∀ name ∈ depsOf list t, ∀ st, Printed all st → st.visited.count false ≤ m →
      ∃ st', (∀ depth, m < depth → (match findDep list all name with
          | some dep => printTaskRecursive list all depth dep k st
          | none => some st) = some st') ∧
        Grown list all k (fun u => ∃ name ∈ depsOf list t, nameOf list u = some name) st st' ∧
        ∀ u, False → u ∈ st'.tasks := by
    intro name hname st hst hm
    cases hdep : findDep list all name with
    | none => exact ⟨st, fun _ _ => rfl, Grown.refl hst, fun _ => False.elim⟩
    | some dep =>
      obtain ⟨hname', i, hi, rfl⟩ := exists_of_findDep hdep
      obtain ⟨st', hcall, hgrown, -⟩ := h i hi k st hst hm
      exact ⟨st', hcall, hgrown.imp fun u hu => ⟨name, hname, hu ▸ hname'⟩, fun _ => False.elim⟩
  obtain ⟨st', hloop, hgrown, -⟩ := foldlM_grown (fun _ _ => False) hone hst hm
  exact ⟨st', hloop, hgrown⟩

/-- A call on a task that has a line does nothing. -/
theorem return_of_mem (hall : all.Nodup) {i : Nat} (hi : i < all.length) (hst : Printed all st)
    (hmem : all.getD i 0 ∈ st.tasks) (m k : Nat) :
    ∃ st', (∀ depth, m < depth →
        printTaskRecursive list all depth (all.getD i 0) k st = some st') ∧
      Grown list all k (· = all.getD i 0) st st' ∧ all.getD i 0 ∈ st'.tasks := by
  refine ⟨st, fun depth hd => ?_, Grown.refl hst, hmem⟩
  obtain ⟨d, rfl⟩ := Nat.exists_eq_succ_of_ne_zero (Nat.ne_of_gt (Nat.zero_lt_of_lt hd))
  exact printTaskRecursive_visited hall hi ((hst.visited i hi).mpr hmem) d k

theorem callsReturn (hall : all.Nodup) (m : Nat) : CallsReturn list all m := by
  induction m with
  | zero =>
    intro i hi k st hst hm
    refine return_of_mem hall hi hst (by_contra fun hnew => ?_) 0 k
    exact absurd (hst.count_lt hi hnew) (by omega)
  | succ m ih =>
    intro i hi k st hst hm
    by_cases hmem : all.getD i 0 ∈ st.tasks
    · exact return_of_mem hall hi hst hmem (m + 1) k
    · have hlt := hst.count_lt hi hmem
      obtain ⟨st', hloop, hgrown⟩ :=
        ih.deps (all.getD i 0) (k + 1) (hst.visit hall hi hmem k) (by dsimp only; omega)
      obtain ⟨lines, hlines, hblock⟩ := hgrown.block
      refine ⟨st', fun depth hd => ?_, ⟨hgrown.printed, ?_, _, ?_, hblock.node⟩, ?_⟩
      · obtain ⟨d, rfl⟩ := Nat.exists_eq_succ_of_ne_zero (Nat.ne_of_gt (Nat.zero_lt_of_lt hd))
        rw [printTaskRecursive_fresh hall hi (hst.unvisited hi hmem)]
        exact hloop d (Nat.lt_of_succ_lt_succ hd)
      · exact hgrown.unvisited.trans hlt.le
      · rw [hlines, List.append_assoc]
        rfl
      · rw [Printing.tasks, hlines]
        simp

end Call

/-! ## 4. The two loops -/

section Graph

variable {list : TaskList} {all : List TaskPtr}

theorem Printed.start : Printed all ⟨List.replicate all.length false, []⟩ := by
  refine ⟨List.length_replicate, List.nodup_nil, List.nil_subset _, fun i hi => ?_⟩
  simp [List.getD_eq_getElem?_getD, hi, Printing.tasks]

/-- **The graph is printed**: for every array of distinct tasks, whatever their names and
dependencies, the recursion ends at the latest when it is as deep as the array is long; every task
has exactly one line, and every line that is indented stands under the line of a task that has its
task in its `deps`. -/
theorem printTaskGraph_lines (hall : all.Nodup) :
    ∃ lines, (∀ depth, all.length < depth →
        graphLines depth list all = some lines ∧
          printTaskGraph depth list all = some (graphText list lines)) ∧
      (lines.map GraphLine.task).Perm all ∧ Nested list 0 lines := by
  have hcalls : CallsReturn list all all.length := callsReturn hall all.length
  have hcount : (List.replicate all.length false).count false ≤ all.length := by simp
  have hroots : ∀ i ∈ List.range all.length, ∀ st, Printed all st →
      st.visited.count false ≤ all.length →
      ∃ st', (∀ depth, all.length < depth → (if isDep list all i then some st
          else printTaskRecursive list all depth (all.getD i 0) 0 st) = some st') ∧
        Grown list all 0 (fun _ => True) st st' ∧ ∀ u, False → u ∈ st'.tasks := by
    intro i hi st hst hm
    split
    · exact ⟨st, fun _ _ => rfl, Grown.refl hst, fun _ => False.elim⟩
    · obtain ⟨st', hcall, hgrown, -⟩ := hcalls i (List.mem_range.mp hi) 0 st hst hm
      exact ⟨st', hcall, hgrown.imp fun _ _ => trivial, fun _ => False.elim⟩
  have hrest : ∀ i ∈ List.range all.length, ∀ st, Printed all st →
      st.visited.count false ≤ all.length →
      ∃ st', (∀ depth, all.length < depth → (if st.visited.getD i false then some st
          else printTaskRecursive list all depth (all.getD i 0) 0 st) = some st') ∧
        Grown list all 0 (fun _ => True) st st' ∧ ∀ u, u = all.getD i 0 → u ∈ st'.tasks := by
    intro i hi st hst hm
    split
    case isTrue hv =>
      refine ⟨st, fun _ _ => rfl, Grown.refl hst, fun u hu => ?_⟩
      exact hu ▸ (hst.visited i (List.mem_range.mp hi)).mp hv
    case isFalse =>
      obtain ⟨st', hcall, hgrown, hmem⟩ := hcalls i (List.mem_range.mp hi) 0 st hst hm
      exact ⟨st', hcall, hgrown.imp fun _ _ => trivial, fun u hu => hu ▸ hmem⟩
  obtain ⟨st1, hloop1, hgrown1, -⟩ := foldlM_grown (fun _ _ => False) hroots Printed.start hcount
  obtain ⟨st2, hloop2, hgrown2, hdone⟩ := foldlM_grown (fun i u => u = all.getD i 0) hrest
    hgrown1.printed (hgrown1.unvisited.trans hcount)
  obtain ⟨lines, hlines, hblock⟩ := (hgrown1.trans hgrown2).block
  have hrun : ∀ depth, all.length < depth → graphLines depth list all = some st2.lines := by
    intro depth hd
    rw [graphLines, hloop1 depth hd, Option.bind_eq_bind, Option.bind_some, hloop2 depth hd]
    rfl
  refine ⟨st2.lines, fun depth hd => ⟨hrun depth hd, ?_⟩, ?_, ?_⟩
  · rw [printTaskGraph, hrun depth hd]
    rfl
  · refine (List.perm_ext_iff_of_nodup hgrown2.printed.nodup hall).mpr fun t => ?_
    refine ⟨fun ht => hgrown2.printed.subset ht, fun ht => ?_⟩
    obtain ⟨i, hi, rfl⟩ := List.getElem_of_mem ht
    exact hdone i (List.mem_range.mpr hi) _ (List.getD_eq_getElem _ _ hi).symm
  · rw [hlines]
    exact hblock.nested

/-- Two tasks that depend on each other; the first also on itself and on a name that no task has. -/
def mutualTasks : TaskList :=
  [{ taskNew (ascii "a") with deps := [ascii "b", ascii "a", ascii "x"] },
    { taskNew (ascii "b") with deps := [ascii "a"] }]

theorem printTaskGraph_mutual :
    (∃ lines, (∀ depth, 2 < depth →
        graphLines depth mutualTasks [0, 1] = some lines ∧
          printTaskGraph depth mutualTasks [0, 1] = some (graphText mutualTasks lines)) ∧
      (lines.map GraphLine.task).Perm [0, 1] ∧ Nested mutualTasks 0 lines) ∧
    graphLines 3 mutualTasks [0, 1] = some [⟨0, 0⟩, ⟨1, 1⟩] :=
  ⟨@printTaskGraph_lines mutualTasks [0, 1] (by decide), by decide⟩

end Graph

end ReproVM
