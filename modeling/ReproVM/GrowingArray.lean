/-
# The array of the walk, cell by cell

Every frame of `collect_dfs` has the array as a pointer of its own, and shares `*n` and `*cap`
with the others.  Here the array is what it is in memory: a block of cells, with every load,
store and `realloc` checked against the block that is alive and against its size.  Cell by cell
the walk does what the walk of `Plan` does on a list (`collectDfsIn_refines`).  So the results
about that walk are results about the cells: as a sequence that grows the array is the closure of
the targets in post-order (`collected_closure`), and every access of the cells is good exactly
when no `realloc` on the way moves the block (`growth_safe_iff`).
-/
import ReproVM.Collect
import ReproVM.Lib.Block

namespace ReproVM

open Bytes (ascii)
open Lib (PostOrder)

/-! ## 1. The array as a sequence -/

/-- **The closure of the targets.**  Without cycles, and with an array that grows in place, the
walk returns exactly the tasks that can be reached from the targets, each once and after all that
it depends on. -/
theorem collected_closure (list : TaskList) (targets : List Bytes) (hac : ∀ t, ¬ OnCycle list t) :
    ∃ f, ∀ fuel, f ≤ fuel → ∃ needed,
      collectNeededTasks (fun _ => false) fuel list targets = .ok needed ∧
        (∀ t, t ∈ needed ↔ Needed list targets t) ∧ needed.Nodup ∧
          ∀ before t after, needed = before ++ t :: after →
            ∀ u, DependsOn list t u → u ∈ before := by
  obtain ⟨f, hf⟩ : ∃ f, ∀ fuel, f ≤ fuel → ∃ needed,
      collectNeededTasks (fun _ => false) fuel list targets = .ok needed :=
    collectNeededTasks_total (fun t _ => hac t) fun _ _ => rfl
  refine ⟨f, fun fuel hfuel => ?_⟩
  obtain ⟨needed, hc⟩ := hf fuel hfuel
  obtain ⟨hnd, hpost, hmem, -⟩ := collectNeededTasks_ok hc
  exact ⟨needed, hc, hmem, hnd, fun _ _ _ he _ hu => hpost.before he hu⟩

/-- A task that two others share, and targets that repeat. -/
def diamond : TaskList :=
  [{ taskNew (ascii "top") with deps := [ascii "left", ascii "right", ascii "none"] },
    { taskNew (ascii "left") with deps := [ascii "base"] },
    { taskNew (ascii "right") with deps := [ascii "base"] }, taskNew (ascii "base")]

theorem diamond_acyclic (t : TaskPtr) : ¬ OnCycle diamond t := by
  have hup : ∀ i u, DependsOn diamond i u → i < u := by
    rintro i u ⟨d, hd, hu⟩
    have hi : i < 4 := by
      by_contra hi
      have hnone : diamond[i]? = none := List.getElem?_eq_none (by simpa [diamond] using hi)
      simp [depsOf, hnone] at hd
    have hall : ∀ i < 4, ∀ d ∈ depsOf diamond i, ∀ u ∈ findTask diamond d, i < u := by decide
    exact hall i hi d hd u hu
  intro h
  have hlt : ∀ u, Relation.TransGen (DependsOn diamond) t u → t < u := by
    intro u hu
    induction hu with
    | single h => exact hup _ _ h
    | tail _ h ih => exact Nat.lt_trans ih (hup _ _ h)
  exact Nat.lt_irrefl t (hlt t h)

theorem collected_closure_diamond :
    ∃ f, ∀ fuel, f ≤ fuel → ∃ needed,
      collectNeededTasks (fun _ => false) fuel diamond [ascii "top", ascii "x", ascii "top"]
          = .ok needed ∧
        (∀ t, t ∈ needed ↔ Needed diamond [ascii "top", ascii "x", ascii "top"] t) ∧
          needed.Nodup ∧ ∀ before t after, needed = before ++ t :: after →
            ∀ u, DependsOn diamond t u → u ∈ before :=
  collected_closure diamond [ascii "top", ascii "x", ascii "top"] diamond_acyclic

/-! ## 2. The cells -/

/-- The block that is alive, its size and its cells, and the `*n` and `*cap` of the frames. -/
structure OutHeap where
  live : Nat
  size : Nat
  cells : Nat → TaskPtr
  n : Nat
  cap : Nat

namespace OutHeap

/-- `out[i]` -/
def load (h : OutHeap) (out i : Nat) : Except Fault TaskPtr :=
  if out ≠ h.live then .error .useAfterFree
  else if h.size ≤ i then .error .bufferOverflow
  else .ok (h.cells i)

/-- `out[i] = t` -/
def store (h : OutHeap) (out i : Nat) (t : TaskPtr) : Except Fault OutHeap :=
  if out ≠ h.live then .error .useAfterFree
  else if h.size ≤ i then .error .bufferOverflow
  else .ok { h with cells := Function.update h.cells i t }

/-- `realloc(out, sizeof(Task*) * size)`: the pointer it gives.  A block that was moved has a new
number, and its old one is dead. -/
def realloc (moves : Nat → Bool) (h : OutHeap) (out size : Nat) : Except Fault (Nat × OutHeap) :=
  if out ≠ h.live then .error .useAfterFree
  else
    let live := if moves h.size then h.live + 1 else h.live
    .ok (live, { h with live := live, size := size })

/-- The guard: `for (i < *n) if (out[i] == t) return`. -/
def scan (h : OutHeap) (out : Nat) (t : TaskPtr) : Except Fault Bool :=
  (List.range h.n).anyM fun i => do return (← h.load out i) = t

/-- The end of a frame.  The pointer that `realloc` gives stays in the frame. -/
def push (moves : Nat → Bool) (h : OutHeap) (out : Nat) (t : TaskPtr) : Except Fault OutHeap := do
  let (out, h) ←
    if h.cap ≤ h.n then realloc moves { h with cap := h.cap * 2 } out (h.cap * 2)
    else .ok (out, h)
  let h ← h.store out h.n t
  return { h with n := h.n + 1 }

end OutHeap

/-- `collect_dfs` on the cells. -/
def collectDfsIn (moves : Nat → Bool) (master : TaskList) :
    Nat → TaskPtr → Nat → OutHeap → Except Fault OutHeap
  | 0, _, _, _ => .error .outOfFuel
  | fuel + 1, t, out, h => do
    if ← h.scan out t then return h
    let h ← (depsOf master t).foldlM
      (fun h d =>
        match findTask master d with
        | some dep => collectDfsIn moves master fuel dep out h
        | none => .ok h)
      h
    h.push moves out t

/-- `collect_needed_tasks` up to its `return`; `malloc` gave block 0, with anything in it. -/
def collectNeededTasksIn (moves : Nat → Bool) (garbage : Nat → TaskPtr) (fuel : Nat)
    (list : TaskList) (targetNames : List Bytes) : Except Fault OutHeap :=
  (startTasks list targetNames).foldlM (fun h t => collectDfsIn moves list fuel t 0 h)
    ⟨0, 16, garbage, 0, 16⟩

/-- What the caller reads: `*out_n` cells through the pointer that was returned. -/
def OutHeap.readAll (h : OutHeap) : Except Fault (List TaskPtr) := (List.range h.n).mapM (h.load 0)

/-! ## 3. What the cells hold -/

namespace OutHeap

/-- The array as a list. -/
def view (h : OutHeap) : OutArray := ⟨h.live, (List.range h.n).map h.cells, h.cap⟩

/-- `*cap` is the size of the block, and the cells in use are inside it. -/
structure Ok (h : OutHeap) : Prop where
  size : h.size = h.cap
  room : h.n ≤ h.cap
  pos : 0 < h.cap

@[simp] theorem view_block (h : OutHeap) : h.view.block = h.live := rfl

@[simp] theorem view_cap (h : OutHeap) : h.view.cap = h.cap := rfl

@[simp] theorem view_length (h : OutHeap) : h.view.tasks.length = h.n := by
  unfold view
  rw [List.length_map, List.length_range]

theorem Ok.load {h : OutHeap} (hk : h.Ok) {i : Nat} (hi : i < h.n) :
    h.load h.live i = .ok (h.cells i) := by
  have := hk.size
  have := hk.room
  unfold OutHeap.load
  rw [if_neg (by simp), if_neg (by omega)]

theorem load_dead {h : OutHeap} {out : Nat} (ho : out ≠ h.live) (i : Nat) :
    h.load out i = .error .useAfterFree := by
  unfold OutHeap.load
  rw [if_pos ho]

theorem anyM_ok {l : List Nat} {p : Nat → Except Fault Bool} {q : Nat → Bool}
    (h : ∀ i ∈ l, p i = .ok (q i)) : l.anyM p = .ok (l.any q) := by
  induction l with
  | nil => rfl
  | cons i l ih =>
    rw [List.anyM_cons, h i List.mem_cons_self, List.any_cons]
    simp only [bind, Except.bind]
    cases q i with
    | true => rfl
    | false => exact ih fun j hj => h j (List.mem_cons_of_mem _ hj)

/-- The guard reads the cells in use, if there are any. -/
theorem Ok.scan {h : OutHeap} (hk : h.Ok) (out : Nat) (t : TaskPtr) :
    h.scan out t =
      if h.view.tasks ≠ [] ∧ out ≠ h.view.block then .error .useAfterFree
      else .ok (decide (t ∈ h.view.tasks)) := by
  unfold OutHeap.scan
  rw [view_block]
  by_cases ho : out = h.live
  · subst ho
    rw [if_neg (by simp), anyM_ok (q := fun i => decide (h.cells i = t))]
    · congr 1
      rw [Bool.eq_iff_iff]
      simp [view]
    · intro i hi
      rw [hk.load (List.mem_range.mp hi)]
      rfl
  · by_cases hn : h.n = 0
    · have hnil : h.view.tasks = [] := by simp [view, hn]
      rw [if_neg (by simp [hnil]), hnil, hn]
      rfl
    · have hne : h.view.tasks ≠ [] := by simpa [view] using hn
      obtain ⟨m, hm⟩ := Nat.exists_eq_succ_of_ne_zero hn
      rw [if_pos ⟨hne, ho⟩, hm, List.range_succ_eq_map, List.anyM_cons, load_dead ho]
      rfl

/-- The two walks end alike: with one fault, or with one array. -/
def Refines (r : Except Fault OutHeap) (r' : Except Fault OutArray) : Prop :=
  (∃ e, r = .error e ∧ r' = .error e) ∨ ∃ h, r = .ok h ∧ r' = .ok h.view ∧ h.Ok

theorem Refines.bind {r : Except Fault OutHeap} {r' : Except Fault OutArray}
    {k : OutHeap → Except Fault OutHeap} {k' : OutArray → Except Fault OutArray}
    (h : Refines r r') (hk : ∀ g : OutHeap, g.Ok → Refines (k g) (k' g.view)) :
    Refines (r >>= k) (r' >>= k') := by
  rcases h with ⟨e, rfl, rfl⟩ | ⟨g, rfl, rfl, hg⟩
  · exact .inl ⟨e, rfl, rfl⟩
  · exact hk g hg

theorem refines_foldlM {α : Type} {f : OutHeap → α → Except Fault OutHeap}
    {f' : OutArray → α → Except Fault OutArray} {l : List α}
    (hf : ∀ x ∈ l, ∀ g : OutHeap, g.Ok → Refines (f g x) (f' g.view x)) {h : OutHeap} (hk : h.Ok) :
    Refines (l.foldlM f h) (l.foldlM f' h.view) := by
  induction l generalizing h with
  | nil => exact .inr ⟨h, rfl, rfl, hk⟩
  | cons x l ih =>
    rw [List.foldlM_cons, List.foldlM_cons]
    exact (hf x List.mem_cons_self h hk).bind fun g hg =>
      ih (fun y hy => hf y (List.mem_cons_of_mem _ hy)) hg

theorem Ok.push {h : OutHeap} (hk : h.Ok) (moves : Nat → Bool) (out : Nat) (t : TaskPtr) :
    Refines (h.push moves out t) (appendOut moves out h.view t) := by
  obtain ⟨hsize, hroom, hpos⟩ := hk
  unfold OutHeap.push appendOut
  rw [view_length, view_block, view_cap]
  by_cases ho : out = h.live
  · subst ho
    rw [if_neg (fun hn : h.live ≠ h.live => hn rfl)]
    by_cases hfull : h.cap ≤ h.n
    · -- the block doubles and may move; the frame stores through the new pointer
      rw [if_pos hfull, if_pos hfull]
      refine .inr ⟨⟨if moves h.cap then h.live + 1 else h.live, h.cap * 2,
        Function.update h.cells h.n t, h.n + 1, h.cap * 2⟩, ?_, ?_, rfl, ?_, ?_⟩
      · simp only [realloc, store, hsize]
        simp [bind, Except.bind, show ¬ h.cap * 2 ≤ h.n by omega]
        rfl
      · unfold view
        rw [Lib.map_range_update]
      · dsimp only
        omega
      · dsimp only
        omega
    · rw [if_neg hfull, if_neg hfull]
      refine .inr ⟨⟨h.live, h.size, Function.update h.cells h.n t, h.n + 1, h.cap⟩, ?_, ?_, hsize, ?_,
        hpos⟩
      · simp only [store]
        simp [bind, Except.bind, hsize, hfull]
        rfl
      · unfold view
        rw [Lib.map_range_update]
      · dsimp only
        omega
  · refine .inl ⟨.useAfterFree, ?_, if_pos ho⟩
    by_cases hfull : h.cap ≤ h.n
    · simp [if_pos hfull, realloc, ho, bind, Except.bind]
    · simp [if_neg hfull, store, ho, bind, Except.bind]

end OutHeap

/-- **Cell by cell the walk is the walk on the list**: it ends with the same fault, or with the
same tasks in the array. -/
theorem collectDfsIn_refines (moves : Nat → Bool) (list : TaskList) (fuel : Nat) (t : TaskPtr)
    (out : Nat) {h : OutHeap} (hk : h.Ok) :
    OutHeap.Refines (collectDfsIn moves list fuel t out h)
      (collectDfs moves list fuel t out h.view) := by
  induction fuel generalizing t h with
  | zero => exact .inl ⟨.outOfFuel, rfl, rfl⟩
  | succ fuel ih =>
    rw [collectDfsIn, collectDfs, hk.scan]
    by_cases hdead : h.view.tasks ≠ [] ∧ out ≠ h.view.block
    · rw [if_pos hdead, if_pos hdead]
      exact .inl ⟨.useAfterFree, rfl, rfl⟩
    · rw [if_neg hdead, if_neg hdead]
      by_cases ht : t ∈ h.view.tasks
      · rw [if_pos ht, decide_eq_true ht]
        exact .inr ⟨h, rfl, rfl, hk⟩
      · rw [if_neg ht, decide_eq_false ht]
        refine (OutHeap.refines_foldlM (fun d _ g hg => ?_) hk).bind fun g hg => hg.push moves out t
        cases findTask list d with
        | none => exact .inr ⟨g, rfl, rfl, hg⟩
        | some dep => exact ih dep hg

/-! ## 4. The whole collection -/

theorem collectNeededTasksIn_refines (moves : Nat → Bool) (garbage : Nat → TaskPtr) (fuel : Nat)
    (list : TaskList) (targets : List Bytes) :
    OutHeap.Refines (collectNeededTasksIn moves garbage fuel list targets)
      ((startTasks list targets).foldlM (fun a t => collectDfs moves list fuel t 0 a)
        ⟨0, [], 16⟩) := by
  have hk : OutHeap.Ok ⟨0, 16, garbage, 0, 16⟩ := ⟨rfl, Nat.zero_le 16, Nat.succ_pos 15⟩
  exact OutHeap.refines_foldlM
    (fun t _ g hg => collectDfsIn_refines moves list fuel t 0 hg) hk

theorem mapM_ok {l : List Nat} {p : Nat → Except Fault TaskPtr} {q : Nat → TaskPtr}
    (h : ∀ i ∈ l, p i = .ok (q i)) : l.mapM p = .ok (l.map q) := by
  induction l with
  | nil => rfl
  | cons i l ih =>
    rw [List.mapM_cons, h i List.mem_cons_self, ih fun j hj => h j (List.mem_cons_of_mem _ hj)]
    rfl

/-- The caller can read the array that is alive, or one without a task. -/
theorem OutHeap.Ok.readAll {h : OutHeap} (hk : h.Ok) :
    h.readAll =
      if h.view.tasks ≠ [] ∧ h.view.block ≠ 0 then .error .useAfterFree else .ok h.view.tasks := by
  unfold OutHeap.readAll
  rw [OutHeap.view_block]
  by_cases h0 : h.live = 0
  · rw [if_neg (by simp [h0]), mapM_ok (q := h.cells)]
    · rfl
    · intro i hi
      have := hk.load (List.mem_range.mp hi)
      rwa [h0] at this
  · by_cases hn : h.n = 0
    · have hnil : h.view.tasks = [] := by simp [OutHeap.view, hn]
      rw [if_neg (by simp [hnil]), hnil, hn]
      rfl
    · have hne : h.view.tasks ≠ [] := by simpa [OutHeap.view] using hn
      obtain ⟨m, hm⟩ := Nat.exists_eq_succ_of_ne_zero hn
      rw [if_pos ⟨hne, h0⟩, hm, List.range_succ_eq_map, List.mapM_cons,
        OutHeap.load_dead (Ne.symm h0)]
      rfl

/-- **What the caller reads** is what the walk on the list collects. -/
theorem collectNeededTasksIn_eq (moves : Nat → Bool) (garbage : Nat → TaskPtr) (fuel : Nat)
    (list : TaskList) (targets : List Bytes) :
    (collectNeededTasksIn moves garbage fuel list targets >>= OutHeap.readAll) =
      collectNeededTasks moves fuel list targets := by
  unfold collectNeededTasks
  rcases collectNeededTasksIn_refines moves garbage fuel list targets with
    ⟨e, h1, h2⟩ | ⟨h, h1, h2, hk⟩
  · rw [h1, h2]
    rfl
  · rw [h1, h2]
    exact hk.readAll

/-- Every access of the array is good, and the caller gets the block that is alive, with all the
tasks that the targets need in it. -/
def SafelyCollected (moves : Nat → Bool) (garbage : Nat → TaskPtr) (list : TaskList)
    (targets : List Bytes) : Prop :=
  ∃ f, ∀ fuel, f ≤ fuel → ∃ h needed, collectNeededTasksIn moves garbage fuel list targets = .ok h ∧
    h.live = 0 ∧ h.readAll = .ok needed ∧ needed.length = h.n ∧ needed.Nodup ∧
      ∀ t, t ∈ needed ↔ Needed list targets t

theorem SafelyCollected.stays {moves : Nat → Bool} {garbage : Nat → TaskPtr} {list : TaskList}
    {targets : List Bytes} (h : SafelyCollected moves garbage list targets) :
    ∀ k, 16 * 2 ^ k < {t | Needed list targets t}.ncard → moves (16 * 2 ^ k) = false := by
  obtain ⟨f, hf⟩ := h
  obtain ⟨h, needed, hc, -, hread, -⟩ := hf f (Nat.le_refl f)
  have hall := collectNeededTasksIn_eq moves garbage f list targets
  rw [hc] at hall
  obtain ⟨hnd, -, hmem, hmv⟩ := collectNeededTasks_ok (hall.symm.trans hread)
  rwa [← length_of_mem_iff hnd hmem]

/-- **Where growing the array is safe**: in an acyclic list every access is good, if and only if
no `realloc` of a capacity that the needed tasks outgrow moves the block. -/
theorem growth_safe_iff (moves : Nat → Bool) (garbage : Nat → TaskPtr) (list : TaskList)
    (targets : List Bytes) (hac : ∀ t, ¬ OnCycle list t) :
    SafelyCollected moves garbage list targets ↔
      ∀ k, 16 * 2 ^ k < {t | Needed list targets t}.ncard → moves (16 * 2 ^ k) = false := by
  refine ⟨SafelyCollected.stays, fun hmv => ?_⟩
  obtain ⟨f, hf⟩ := collectAll_returns (fun t _ => hac t) hmv
  refine ⟨f, fun fuel hfuel => ?_⟩
  obtain ⟨a, h0, ha⟩ := hf fuel hfuel
  rcases collectNeededTasksIn_refines moves garbage fuel list targets with
    ⟨e, -, h2⟩ | ⟨h, h1, h2, hk⟩
  · rw [ha] at h2
    cases h2
  · obtain rfl : a = h.view := Except.ok.inj (ha.symm.trans h2)
    have hread : h.readAll = .ok h.view.tasks := by
      rw [hk.readAll, if_neg fun hn => hn.2 h0]
    have hall := collectNeededTasksIn_eq moves garbage fuel list targets
    rw [h1] at hall
    obtain ⟨hnd, -, hmem, -⟩ := collectNeededTasks_ok (hall.symm.trans hread)
    exact ⟨h, h.view.tasks, h1, h0, hread, h.view_length, hnd, hmem⟩

theorem growth_safe_iff_diamond :
    SafelyCollected (fun _ => true) (fun _ => 7) diamond [] ↔
      ∀ k, 16 * 2 ^ k < {t | Needed diamond [] t}.ncard → true = false :=
  growth_safe_iff (fun _ => true) (fun _ => 7) diamond [] diamond_acyclic

/-- Seventeen tasks without dependencies. -/
def seventeen : Bytes :=
  (List.range 17).flatMap fun i => ascii "task " ++ [97 + UInt8.ofNat i] ++ ascii " \x7b\n\x7d\n"

/-- The seventeenth task moves the array, and the caller is left with the block that was freed. -/
theorem seventeen_tasks_dangle :
    (∀ t, ¬ OnCycle (parseManifest seventeen) t) ∧
      ¬ SafelyCollected (fun _ => true) (fun _ => 0) (parseManifest seventeen) [] := by
  have hlen : (parseManifest seventeen).length = 17 := by decide
  have hdeps : ∀ t ∈ parseManifest seventeen, t.deps = [] := by decide
  constructor
  · intro t hc
    obtain ⟨u, ⟨d, hd, -⟩, -⟩ := Relation.TransGen.head'_iff.mp hc
    unfold depsOf at hd
    cases ht : (parseManifest seventeen)[t]? with
    | none => simp [ht] at hd
    | some task => simp [ht, hdeps task (List.mem_of_getElem? ht)] at hd
  · intro hs
    have hset : {t | Needed (parseManifest seventeen) [] t} = ↑(Finset.range 17) := by
      ext t
      rw [Finset.coe_range, Set.mem_Iio, ← hlen]
      exact ⟨Needed.lt, fun ht => ⟨t, List.mem_range.mpr ht, .refl⟩⟩
    have hcard : 16 * 2 ^ 0 < {t | Needed (parseManifest seventeen) [] t}.ncard := by
      rw [hset, Set.ncard_coe_finset, Finset.card_range]
      decide
    exact absurd (hs.stays 0 hcard) (by decide)

end ReproVM
