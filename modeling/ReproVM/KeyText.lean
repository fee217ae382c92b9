/-
# What the text of the task hash tells

The text has the command, the hashes of the inputs in the order of `strcmp` and what is appended
for the dependencies, each on a line of its own.  A command has no newline and a hash neither
newline nor comma, so the text tells the command and which hashes there are, each as often as it
is there; it tells nothing of the order of the inputs, of their paths, and of the outputs.
-/
import ReproVM.TaskSteps

namespace ReproVM

open Bytes (ascii pieces unpieces)

/-! ## 1. Sorted and joined -/

theorem strcmp_totalGt : Lib.TotalGt fun a b => decide (0 < strcmp a b) where
  asymm {a b} h := by
    have hs := strcmp_swap a b
    simp only [decide_eq_true_eq, decide_eq_false_iff_not] at h ⊢
    omega
  trans {a b c} h h' := by
    simp only [decide_eq_false_iff_not, not_lt] at h h' ⊢
    exact strcmp_trans h h'

theorem sortStrings_perm (l : List Bytes) : (sortStrings l).Perm l := Lib.exchangeSort_perm l

/-- The order in which the strings came is lost. -/
theorem sortStrings_eq_iff {l l' : List Bytes} : sortStrings l = sortStrings l' ↔ l.Perm l' := by
  constructor
  · intro h
    exact (sortStrings_perm l).symm.trans (h ▸ sortStrings_perm l')
  · intro h
    refine Lib.exchangeSort_eq_of_perm strcmp_totalGt (fun a b hab hba => ?_) h
    have hs := strcmp_swap a b
    simp only [decide_eq_false_iff_not, not_lt] at hab hba
    exact strcmp_eq_zero.mp (by omega)

/-- What a function that tells them apart makes the same, in any order. -/
theorem perm_of_map_injOn {α β : Type} [Nonempty α] {f : α → β} {T : Set α} (hf : Set.InjOn f T)
    {xs ys : List α} (hx : ∀ x ∈ xs, x ∈ T) (hy : ∀ y ∈ ys, y ∈ T)
    (h : (xs.map f).Perm (ys.map f)) : xs.Perm ys := by
  have hback : ∀ l : List α, (∀ x ∈ l, x ∈ T) →
      (l.map f).map (Function.invFunOn f T) = l := by
    intro l hl
    rw [List.map_map]
    conv_rhs => rw [← List.map_id l]
    exact List.map_congr_left fun x hx => hf.leftInvOn_invFunOn (hl x hx)
  rw [← hback xs hx, ← hback ys hy]
  exact h.map _

/-- What has one hash each, in any order. -/
theorem perm_of_map_blobHash {S : Set Bytes} (hS : CollisionFree S) {xs ys : List Bytes}
    (hx : ∀ x ∈ xs, x ∈ S) (hy : ∀ y ∈ ys, y ∈ S)
    (h : (xs.map blobHash).Perm (ys.map blobHash)) : xs.Perm ys :=
  perm_of_map_injOn (fun _ hx _ hy he => blobHash_inj hS hx hy he) hx hy h

theorem joinStrings_eq (xs : List Bytes) : joinStrings xs (ascii ",") = unpieces 44 xs := by
  induction xs with
  | nil => rfl
  | cons x xs ih =>
    cases xs with
    | nil => rfl
    | cons y ys =>
      rw [joinStrings, unpieces, ih, show ascii "," = [44] by decide, List.append_assoc,
        List.singleton_append]

/-- Hashes are told apart when they are joined, and no hash from none. -/
theorem joinStrings_inj {xs ys : List Bytes} (hx : ∀ x ∈ xs, IsHash x) (hy : ∀ y ∈ ys, IsHash y)
    (h : joinStrings xs (ascii ",") = joinStrings ys (ascii ",")) : xs = ys := by
  have hsep : ∀ zs : List Bytes, (∀ z ∈ zs, IsHash z) → zs ≠ [] → pieces 44 (unpieces 44 zs) = zs :=
    fun zs hz hne => Bytes.pieces_unpieces hne fun z hm => (hz z hm).notMem (by decide)
  have hnil : ∀ zs : List Bytes, (∀ z ∈ zs, IsHash z) → unpieces 44 zs = [] → zs = [] := by
    intro zs hz he
    by_contra hne
    have hp := hsep zs hz hne
    rw [he] at hp
    exact (hz [] (hp ▸ List.mem_singleton_self [])).ne_nil rfl
  rw [joinStrings_eq, joinStrings_eq] at h
  by_cases hxs : xs = []
  · subst hxs
    exact (hnil ys hy h.symm).symm
  · by_cases hys : ys = []
    · subst hys
      exact hnil xs hx h
    · rw [← hsep xs hx hxs, h, hsep ys hy hys]

/-- As many strings without a comma are told apart. -/
theorem joinStrings_inj_of_length {xs ys : List Bytes} (hx : ∀ x ∈ xs, 44 ∉ x)
    (hy : ∀ y ∈ ys, 44 ∉ y) (hl : xs.length = ys.length)
    (h : joinStrings xs (ascii ",") = joinStrings ys (ascii ",")) : xs = ys := by
  rw [joinStrings_eq, joinStrings_eq] at h
  by_cases hxs : xs = []
  · rw [hxs, List.length_nil] at hl
    rw [hxs, List.eq_nil_of_length_eq_zero hl.symm]
  · have hys : ys ≠ [] := by
      rintro rfl
      exact hxs (List.eq_nil_of_length_eq_zero hl)
    rw [← Bytes.pieces_unpieces hxs hx, h, Bytes.pieces_unpieces hys hy]

theorem joinStrings_length {xs : List Bytes} (h : ∀ x ∈ xs, IsHash x) :
    (joinStrings xs (ascii ",")).length = 65 * xs.length - 1 := by
  rw [joinStrings_eq]
  induction xs with
  | nil => rfl
  | cons x xs ih =>
    have hx := (h x List.mem_cons_self).length
    cases xs with
    | nil => exact hx
    | cons y ys =>
      have := ih fun z hz => h z (List.mem_cons_of_mem _ hz)
      rw [unpieces, List.length_append, List.length_cons, this, hx]
      simp only [List.length_cons]
      omega

/-! ## 2. The lines of the text -/

/-- What is appended for the dependencies. -/
def depsText (task : Task) : Bytes :=
  if task.deps = [] then ascii "deps=\n"
  else ascii "deps=" ++ joinStrings (task.deps.map fun _ => ascii "") (ascii ",") ++ ascii "\n"

/-- The text, line by line. -/
theorem taskText_eq {task : Task} {hs : List Bytes} (hl : hs.length = task.inputs.length) :
    taskText task hs = (ascii "cmd=" ++ task.cmd.getD []) ++
      10 :: ((ascii "inputs=" ++ joinStrings (sortStrings hs) (ascii ",")) ++ 10 :: depsText task) := by
  have hnl : ascii "\n" = [10] := by decide
  unfold taskText
  by_cases hi : task.inputs = []
  · obtain rfl : hs = [] := by simpa [hi] using hl
    have hjoin : joinStrings (sortStrings []) (ascii ",") = [] := rfl
    have hline : ascii "inputs=\n" = ascii "inputs=" ++ [10] := by decide
    rw [if_pos hi, hjoin, hnl, hline, depsText]
    simp [hnl]
  · rw [if_neg hi, hnl, depsText]
    simp [hnl]

theorem taskText_length {task : Task} {hs : List Bytes} (hl : hs.length = task.inputs.length)
    (hh : ∀ h ∈ hs, IsHash h) :
    (taskText task hs).length =
      (task.cmd.getD []).length + (65 * hs.length - 1) + (depsText task).length + 13 := by
  have hcmd : (ascii "cmd=").length = 4 := by decide
  have hinputs : (ascii "inputs=").length = 7 := by decide
  have hsorted : ∀ h ∈ sortStrings hs, IsHash h := fun h hm =>
    hh h ((sortStrings_perm hs).mem_iff.mp hm)
  have hjoin := joinStrings_length hsorted
  rw [(sortStrings_perm hs).length_eq] at hjoin
  rw [taskText_eq hl]
  simp only [List.length_append, List.length_cons, hcmd, hinputs, hjoin]
  omega

/-- **Two tasks have one text** exactly where they have the same command, the same hashes up to
order, and the same text for their dependencies. -/
theorem taskText_eq_iff {task task' : Task} {hs hs' : List Bytes}
    (hc : 10 ∉ task.cmd.getD []) (hc' : 10 ∉ task'.cmd.getD [])
    (hl : hs.length = task.inputs.length) (hl' : hs'.length = task'.inputs.length)
    (hh : ∀ h ∈ hs, IsHash h) (hh' : ∀ h ∈ hs', IsHash h) :
    taskText task hs = taskText task' hs' ↔
      task.cmd.getD [] = task'.cmd.getD [] ∧ hs.Perm hs' ∧ depsText task = depsText task' := by
  have hcmd : ∀ c : Bytes, 10 ∉ c → 10 ∉ ascii "cmd=" ++ c := by
    intro c hc hm
    rcases List.mem_append.mp hm with hm | hm
    · exact absurd hm (by decide)
    · exact hc hm
  have hsorted : ∀ l : List Bytes, (∀ h ∈ l, IsHash h) → ∀ h ∈ sortStrings l, IsHash h :=
    fun l hl h hm => hl h ((sortStrings_perm l).mem_iff.mp hm)
  have hinputs : ∀ l : List Bytes, (∀ h ∈ l, IsHash h) →
      10 ∉ ascii "inputs=" ++ joinStrings (sortStrings l) (ascii ",") := by
    intro l hl hm
    rcases List.mem_append.mp hm with hm | hm
    · exact absurd hm (by decide)
    · rw [joinStrings_eq] at hm
      rcases Bytes.mem_unpieces hm with h | ⟨x, hx, h⟩
      · exact absurd h (by decide)
      · exact (hsorted l hl x hx).notMem (by decide) h
  rw [taskText_eq hl, taskText_eq hl', Bytes.append_sep_inj (hcmd _ hc) (hcmd _ hc'),
    List.append_cancel_left_eq, Bytes.append_sep_inj (hinputs hs hh) (hinputs hs' hh'),
    List.append_cancel_left_eq]
  refine and_congr_right fun _ => and_congr_left fun _ => ?_
  constructor
  · intro h
    exact sortStrings_eq_iff.mp (joinStrings_inj (hsorted hs hh) (hsorted hs' hh') h)
  · intro h
    rw [sortStrings_eq_iff.mpr h]

end ReproVM
