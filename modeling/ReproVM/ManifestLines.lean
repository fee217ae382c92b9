/-
# What the lines of a manifest do, one by one

Any text is a manifest: `parse_manifest` takes each line for what its beginning says, and passes
over what it cannot use.  A line that is no header either finishes the open task, or sets one
field of it, or does nothing (`parseTmp_open`); a header line opens a task, and the one that was
open is gone.  So a text gives one task for each of its header lines exactly when some line
finishes the task between any two of them (`parse_keeps_tasks_iff`).  The tests for the key words
look at the beginning of the line only; which lines set a field under a name that is not the
field's is `only_exact_keys_iff`.
-/
import ReproVM.Manifest

namespace ReproVM

open Bytes (ascii pieces unpieces)

/-! ## 1. What a line is -/

/-- The key words, in the order in which they are tried. -/
def keyWords : List Bytes := [ascii "cmd", ascii "inputs", ascii "outputs", ascii "deps"]

def IsHeader (line : Bytes) : Prop := startsWith (trim line) (ascii "task ") = true

instance (line : Bytes) : Decidable (IsHeader line) :=
  inferInstanceAs (Decidable (startsWith (trim line) (ascii "task ") = true))

/-- A line with a closing brace that is no comment, no header and does not begin with a key
word. -/
structure Closes (line : Bytes) : Prop where
  comment : (trim line).head? ≠ some 35
  header : ¬ IsHeader line
  key : ∀ k ∈ keyWords, startsWith (trim line) k = false
  brace : 125 ∈ trim line

instance (line : Bytes) : Decidable (Closes line) :=
  decidable_of_iff ((trim line).head? ≠ some 35 ∧ ¬ IsHeader line ∧
      (∀ k ∈ keyWords, startsWith (trim line) k = false) ∧ 125 ∈ trim line)
    ⟨fun ⟨h1, h2, h3, h4⟩ => ⟨h1, h2, h3, h4⟩, fun ⟨h1, h2, h3, h4⟩ => ⟨h1, h2, h3, h4⟩⟩

/-- The field that a line sets, with its value. -/
def assigned (tmp : Bytes) : Option Field :=
  if startsWith tmp (ascii "cmd") then
    (afterEq tmp).map fun eq => .cmd (eq.dropWhile isspace)
  else if startsWith tmp (ascii "inputs") then (listField tmp).map .inputs
  else if startsWith tmp (ascii "outputs") then (listField tmp).map .outputs
  else if startsWith tmp (ascii "deps") then (listField tmp).map .deps
  else none

theorem isSome_strchr {s : Bytes} {c : UInt8} : (strchr s c).isSome = true ↔ c ∈ s := by
  unfold strchr
  constructor
  · intro h
    by_contra hc
    have hnil : s.dropWhile (· ≠ c) = [] :=
      List.dropWhile_eq_nil_iff.mpr fun x hx => by
        rw [decide_eq_true_eq]
        rintro rfl
        exact hc hx
    rw [hnil] at h
    cases h
  · intro h
    have hne : s.dropWhile (· ≠ c) ≠ [] := by
      intro hnil
      simpa using List.dropWhile_eq_nil_iff.mp hnil c h
    obtain ⟨x, xs, hx⟩ := List.exists_cons_of_ne_nil hne
    rw [hx]
    rfl

theorem parseTmp_header {tmp : Bytes} (h : startsWith tmp (ascii "task ") = true)
    (st : ParseState) :
    parseTmp st tmp = { st with cur := some (taskNew (headerName tmp)) } := by
  have hhead : ¬ (tmp.head? = some 35 ∨ tmp = []) := by
    cases tmp with
    | nil => cases h
    | cons c s =>
      have hc : c = 116 := by
        simp only [startsWith, ascii] at h
        simp [List.isPrefixOf] at h
        exact h.1.symm
      simp [hc]
  unfold parseTmp
  rw [if_neg hhead, if_pos h]

/-- Outside a block a line that is no header does nothing. -/
theorem parseTmp_outside {tmp : Bytes} (h : startsWith tmp (ascii "task ") = false)
    (ts : TaskList) : parseTmp ⟨ts, none⟩ tmp = ⟨ts, none⟩ := by
  unfold parseTmp
  rw [h]
  split <;> simp

theorem parseLine_eq {line : Bytes} (hlen : line.length ≤ 4095) (st : ParseState) :
    parseLine st line = parseTmp st (trim line) := by
  unfold parseLine
  rw [List.take_of_length_le hlen]

/-- A line that begins with a key word is no comment and does not close the block. -/
theorem not_closes_of_key {line k : Bytes} (hk : k ∈ keyWords)
    (h : startsWith (trim line) k = true) : ¬ Closes line := by
  intro hc
  rw [hc.key k hk] at h
  cases h

theorem startsWith_nil : ∀ k ∈ keyWords, startsWith [] k = false := by decide

theorem startsWith_comment (s : Bytes) : ∀ k ∈ keyWords, startsWith (35 :: s) k = false := by
  simp only [keyWords, List.forall_mem_cons]
  exact ⟨rfl, rfl, rfl, rfl, by simp⟩

theorem assigned_none {tmp : Bytes} (h : ∀ k ∈ keyWords, startsWith tmp k = false) :
    assigned tmp = none := by
  unfold keyWords at h
  unfold assigned
  simp [h]

/-- **In an open block** a line that is no header finishes the task, or sets the field it names,
or does nothing. -/
theorem parseLine_open {line : Bytes} (hlen : line.length ≤ 4095) (hh : ¬ IsHeader line)
    (ts : TaskList) (cur : Task) :
    parseLine ⟨ts, some cur⟩ line =
      if Closes line then ⟨ts ++ [cur], none⟩
      else ⟨ts, some ((assigned (trim line)).elim cur fun f => f.update cur)⟩ := by
  have hhead : startsWith (trim line) (ascii "task ") = false := by simpa [IsHeader] using hh
  have hkey : ∀ k ∈ keyWords, startsWith (trim line) k = true → ¬ Closes line :=
    fun k hk h => not_closes_of_key hk h
  simp only [keyWords, List.forall_mem_cons] at hkey
  obtain ⟨hcmd, hinputs, houtputs, hdeps, -⟩ := hkey
  rw [parseLine_eq hlen]
  unfold parseTmp
  by_cases hc : (trim line).head? = some 35 ∨ trim line = []
  · -- a comment, or nothing
    have hclose : ¬ Closes line := by
      rintro ⟨h1, -, -, h4⟩
      rcases hc with hc | hc
      · exact h1 hc
      · rw [hc] at h4
        cases h4
    have hnone : assigned (trim line) = none := by
      refine assigned_none fun k hk => ?_
      rcases hc with hc | hc
      · obtain ⟨s, hs⟩ : ∃ s, trim line = 35 :: s := by
          cases ht : trim line with
          | nil => rw [ht] at hc; cases hc
          | cons c s => rw [ht] at hc; exact ⟨s, by rw [Option.some.inj hc]⟩
        rw [hs]
        exact startsWith_comment s k hk
      · rw [hc]
        exact startsWith_nil k hk
    rw [if_pos hc, if_neg hclose, hnone]
    rfl
  · rw [if_neg hc, hhead]
    unfold assigned
    simp only [Bool.false_eq_true, if_false]
    by_cases h1 : startsWith (trim line) (ascii "cmd") = true
    · rw [if_pos h1, if_pos h1, if_neg (hcmd h1)]
      cases afterEq (trim line) <;> rfl
    rw [if_neg h1, if_neg h1]
    by_cases h2 : startsWith (trim line) (ascii "inputs") = true
    · rw [if_pos h2, if_pos h2, if_neg (hinputs h2)]
      cases listField (trim line) <;> rfl
    rw [if_neg h2, if_neg h2]
    by_cases h3 : startsWith (trim line) (ascii "outputs") = true
    · rw [if_pos h3, if_pos h3, if_neg (houtputs h3)]
      cases listField (trim line) <;> rfl
    rw [if_neg h3, if_neg h3]
    by_cases h4 : startsWith (trim line) (ascii "deps") = true
    · rw [if_pos h4, if_pos h4, if_neg (hdeps h4)]
      cases listField (trim line) <;> rfl
    rw [if_neg h4, if_neg h4]
    by_cases h5 : 125 ∈ trim line
    · have hclose : Closes line := by
        refine ⟨fun h => hc (.inl h), hh, ?_, h5⟩
        simp only [keyWords, List.forall_mem_cons]
        simp [h1, h2, h3, h4]
      rw [if_pos (isSome_strchr.mpr h5), if_pos hclose]
    · rw [if_neg fun h => h5 (isSome_strchr.mp h), if_neg fun h => h5 h.brace]
      rfl

/-! ## 2. The tasks that are kept -/

/-- The names on the header lines, in order. -/
def headerNames (lines : List Bytes) : List Bytes :=
  (lines.filter fun l => IsHeader l).map fun l => headerName (trim l)

/-- Between any two header lines there is one that finishes the task. -/
def BlocksClosed (lines : List Bytes) : Prop :=
  ∀ before l between l' after, lines = before ++ l :: (between ++ l' :: after) →
    IsHeader l → IsHeader l' → ∃ m ∈ between, Closes m

/-- The names of the tasks that the parser has. -/
def ParseState.names (st : ParseState) : List Bytes :=
  st.tasks.map Task.name ++ (st.cur.map Task.name).toList

/-- How many tasks are lost on the lines, with or without one open before them. -/
def lost : Bool → List Bytes → Nat
  | _, [] => 0
  | isOpen, l :: ls =>
    if IsHeader l then (if isOpen then 1 else 0) + lost true ls
    else if Closes l then lost false ls
    else lost isOpen ls

theorem Field.update_name (f : Field) (t : Task) : (f.update t).name = t.name := by
  cases f <;> rfl

/-- What a line does to the names. -/
theorem parseLine_names {line : Bytes} (hlen : line.length ≤ 4095) (st : ParseState) :
    if IsHeader line then
      (parseLine st line).cur.isSome ∧
        (parseLine st line).names = st.tasks.map Task.name ++ [headerName (trim line)]
    else
      (parseLine st line).names = st.names ∧
        (parseLine st line).cur.isSome = (st.cur.isSome && !decide (Closes line)) := by
  obtain ⟨ts, cur⟩ := st
  by_cases hh : IsHeader line
  · rw [if_pos hh, parseLine_eq hlen, parseTmp_header hh]
    exact ⟨rfl, rfl⟩
  · rw [if_neg hh]
    cases cur with
    | none =>
      have hhead : startsWith (trim line) (ascii "task ") = false := by simpa [IsHeader] using hh
      rw [parseLine_eq hlen, parseTmp_outside hhead]
      exact ⟨rfl, rfl⟩
    | some t =>
      rw [parseLine_open hlen hh]
      by_cases hc : Closes line
      · rw [if_pos hc]
        simp [ParseState.names, hc]
      · rw [if_neg hc]
        cases assigned (trim line) with
        | none => simp [ParseState.names, hc]
        | some f => simp [ParseState.names, hc, Field.update_name]

/-- **Over the lines** the names of the headers are kept in order, less one for each task that is
lost. -/
theorem foldl_names {lines : List Bytes} (hlen : ∀ l ∈ lines, l.length ≤ 4095) (st : ParseState) :
    (lines.foldl parseLine st).names.Sublist (st.names ++ headerNames lines) ∧
      (lines.foldl parseLine st).names.length + lost st.cur.isSome lines =
        st.names.length + (headerNames lines).length := by
  induction lines generalizing st with
  | nil =>
    rw [show headerNames [] = [] from rfl, List.append_nil]
    exact ⟨List.Sublist.refl _, rfl⟩
  | cons l ls ih =>
    have hline := parseLine_names (hlen l List.mem_cons_self) st
    obtain ⟨hsub, hcount⟩ := ih (fun m hm => hlen m (List.mem_cons_of_mem _ hm)) (parseLine st l)
    rw [List.foldl_cons]
    by_cases hh : IsHeader l
    · rw [if_pos hh] at hline
      obtain ⟨hopen, hnames⟩ := hline
      have hheader : headerNames (l :: ls) = headerName (trim l) :: headerNames ls := by
        simp [headerNames, hh]
      rw [hnames] at hsub hcount
      rw [hopen] at hcount
      rw [hheader, lost, if_pos hh]
      refine ⟨hsub.trans ?_, ?_⟩
      · rw [List.append_assoc, List.singleton_append]
        exact (List.sublist_append_left _ _).append_right _
      · unfold ParseState.names at hcount ⊢
        cases st.cur <;> simp at hcount ⊢ <;> omega
    · rw [if_neg hh] at hline
      obtain ⟨hnames, hopen⟩ := hline
      have hheader : headerNames (l :: ls) = headerNames ls := by
        simp [headerNames, hh]
      rw [hnames] at hsub hcount
      rw [hheader]
      refine ⟨hsub, hcount ▸ ?_⟩
      rw [hopen, lost, if_neg hh]
      by_cases hc : Closes l
      · rw [if_pos hc, decide_eq_true hc, Bool.not_true, Bool.and_false]
      · rw [if_neg hc, decide_eq_false hc, Bool.not_false, Bool.and_true]

/-- Before the first header line there is one that finishes the task. -/
def FirstClosed (lines : List Bytes) : Prop :=
  ∀ between l after, lines = between ++ l :: after → IsHeader l → ∃ m ∈ between, Closes m

theorem firstClosed_cons {l : Bytes} {ls : List Bytes} :
    FirstClosed (l :: ls) ↔ ¬ IsHeader l ∧ (Closes l ∨ FirstClosed ls) := by
  constructor
  · intro h
    refine ⟨fun hl => ?_, ?_⟩
    · obtain ⟨m, hm, -⟩ := h [] l ls rfl hl
      cases hm
    · by_cases hc : Closes l
      · exact .inl hc
      · refine .inr fun between l' after he hl' => ?_
        obtain ⟨m, hm, hcm⟩ := h (l :: between) l' after (by rw [he]; rfl) hl'
        rcases List.mem_cons.mp hm with rfl | hm
        · exact absurd hcm hc
        · exact ⟨m, hm, hcm⟩
  · rintro ⟨hl, h⟩ between l' after he hl'
    cases between with
    | nil =>
      obtain ⟨rfl, -⟩ := List.cons.inj he
      exact absurd hl' hl
    | cons m between =>
      obtain ⟨rfl, hls⟩ := List.cons.inj he
      rcases h with hc | h
      · exact ⟨l, List.mem_cons_self, hc⟩
      · obtain ⟨x, hx, hcx⟩ := h between l' after hls hl'
        exact ⟨x, List.mem_cons_of_mem _ hx, hcx⟩

theorem blocksClosed_cons {l : Bytes} {ls : List Bytes} :
    BlocksClosed (l :: ls) ↔ (IsHeader l → FirstClosed ls) ∧ BlocksClosed ls := by
  constructor
  · intro h
    refine ⟨fun hl between l' after he hl' => ?_, fun before x between l' after he hx hl' => ?_⟩
    · exact h [] l between l' after (by rw [he]; rfl) hl hl'
    · exact h (l :: before) x between l' after (by rw [he]; rfl) hx hl'
  · rintro ⟨hfirst, h⟩ before x between l' after he hx hl'
    cases before with
    | nil =>
      obtain ⟨rfl, hls⟩ := List.cons.inj he
      exact hfirst hx between l' after hls hl'
    | cons b before =>
      obtain ⟨-, hls⟩ := List.cons.inj he
      exact h before x between l' after hls hx hl'

/-- No task is lost exactly where the blocks are closed. -/
theorem lost_eq_zero (lines : List Bytes) :
    (lost false lines = 0 ↔ BlocksClosed lines) ∧
      (lost true lines = 0 ↔ FirstClosed lines ∧ BlocksClosed lines) := by
  induction lines with
  | nil => simp [lost, FirstClosed, BlocksClosed]
  | cons l ls ih =>
    obtain ⟨ihf, iht⟩ := ih
    rw [firstClosed_cons, blocksClosed_cons, lost, lost]
    by_cases hh : IsHeader l
    · rw [if_pos hh, if_pos hh]
      simp [hh, iht]
    · rw [if_neg hh, if_neg hh]
      by_cases hc : Closes l
      · rw [if_pos hc, if_pos hc]
        simp [hh, hc, ihf]
      · rw [if_neg hc, if_neg hc]
        simp [hh, hc, ihf, iht]

/-- The parser reads the lines of a text without NUL. -/
theorem foldl_lines {text : Bytes} (h0 : 0 ∉ text) (st : ParseState) :
    (strtokAll 10 (cstr text)).foldl parseLine st = (pieces 10 text).foldl parseLine st := by
  have hline : ∀ l ∈ pieces 10 text, ∀ c ∈ l, LineByte c := by
    intro l hl c hc
    constructor
    · rintro rfl
      exact h0 (Bytes.mem_of_mem_pieces hl hc)
    · rintro rfl
      exact Bytes.notMem_of_mem_pieces hl hc
  have := foldl_tokens hline st
  rwa [Bytes.unpieces_pieces] at this

theorem parseTasks_names (text : Bytes) :
    (parseTasks text).map Task.name =
      ((strtokAll 10 (cstr text)).foldl parseLine ⟨[], none⟩).names := by
  unfold parseTasks ParseState.names
  cases hc : ((strtokAll 10 (cstr text)).foldl parseLine ⟨[], none⟩).cur <;> simp [hc]

theorem parseManifest_names (text : Bytes) :
    (parseManifest text).map Task.name = (parseTasks text).map Task.name := by
  unfold parseManifest
  exact (buildDependents_eq _).names

/-- **Which texts keep their tasks.**  The tasks of a text are those of its header lines, one to
one and in order, if and only if between any two header lines one finishes the task. -/
theorem parse_keeps_tasks_iff (text : Bytes) (h0 : 0 ∉ text)
    (hlen : ∀ l ∈ pieces 10 text, l.length ≤ 4095) :
    (parseManifest text).map Task.name = headerNames (pieces 10 text) ↔
      BlocksClosed (pieces 10 text) := by
  obtain ⟨hsub, hcount⟩ := foldl_names hlen ⟨[], none⟩
  rw [parseManifest_names, parseTasks_names, foldl_lines h0, ← (lost_eq_zero _).1]
  have hnames : (ParseState.names ⟨[], none⟩) = [] := rfl
  rw [hnames, List.nil_append] at hsub
  rw [hnames, List.length_nil, Nat.zero_add] at hcount
  constructor
  · intro he
    rw [he] at hcount
    exact Nat.add_eq_left.mp hcount
  · intro h
    have hz : lost (ParseState.cur ⟨[], none⟩).isSome (pieces 10 text) = 0 := h
    rw [hz, Nat.add_zero] at hcount
    exact hsub.eq_of_length hcount

theorem parse_keeps_tasks_two :
    (parseManifest (ascii "task a \x7b\n\x7d\ntask b \x7b")).map Task.name =
        headerNames (pieces 10 (ascii "task a \x7b\n\x7d\ntask b \x7b")) ↔
      BlocksClosed (pieces 10 (ascii "task a \x7b\n\x7d\ntask b \x7b")) :=
  parse_keeps_tasks_iff (ascii "task a \x7b\n\x7d\ntask b \x7b") (by decide) (by decide)

/-- The brace on the header line does not finish the block, and the next header drops it. -/
theorem unclosed_task_dropped :
    let text := ascii "task a \x7b \x7d\ntask b \x7b\n\x7d\n"
    0 ∉ text ∧ (∀ l ∈ pieces 10 text, l.length ≤ 4095) ∧
      (parseManifest text).map Task.name ≠ headerNames (pieces 10 text) ∧
        (parseManifest text).map Task.name = [ascii "b"] := by
  decide

/-! ## 3. The field that a line sets -/

/-- The text before the first `=`, without the blanks around it. -/
def keyText (line : Bytes) : Bytes := trim (line.takeWhile (· ≠ 61))

/-- The task of the open block behind a line: still open, or finished.  Where the line opens
another block the parser has the task no more, and nobody changes it. -/
def taskAfter (ts : TaskList) (cur : Task) (line : Bytes) : Task :=
  if IsHeader line then cur
  else
    let st := parseLine ⟨ts, some cur⟩ line
    (st.cur <|> st.tasks.getLast?).getD cur

/-- A field changes only on a line that has its key before the `=`. -/
structure OnlyExactKeys (ts : TaskList) (cur : Task) (line : Bytes) : Prop where
  cmd : (taskAfter ts cur line).cmd ≠ cur.cmd → keyText line = ascii "cmd"
  inputs : (taskAfter ts cur line).inputs ≠ cur.inputs → keyText line = ascii "inputs"
  outputs : (taskAfter ts cur line).outputs ≠ cur.outputs → keyText line = ascii "outputs"
  deps : (taskAfter ts cur line).deps ≠ cur.deps → keyText line = ascii "deps"

/-- A key word at the beginning of a line with `=` is all there is before the `=`. -/
def NamesKey (line : Bytes) : Prop :=
  ∀ k ∈ keyWords, startsWith (trim line) k = true → 61 ∈ line → keyText line = k

/-- The value on the line is the one that the field has. -/
def Repeats (cur : Task) (line : Bytes) : Prop := ∀ f ∈ assigned (trim line), f.In cur.decl

theorem assigned_key {tmp : Bytes} {f : Field} (h : assigned tmp = some f) :
    startsWith tmp f.key = true ∧ 61 ∈ tmp := by
  have heq : ∀ r, afterEq tmp = some r → 61 ∈ tmp := by
    intro r hr
    unfold afterEq at hr
    refine isSome_strchr.mp ?_
    cases hs : strchr tmp 61 with
    | none => rw [hs] at hr; cases hr
    | some _ => rfl
  have hlist : ∀ xs, listField tmp = some xs → 61 ∈ tmp := by
    intro xs hxs
    unfold listField at hxs
    obtain ⟨r, hr, -⟩ := Option.map_eq_some_iff.mp hxs
    exact heq r hr
  unfold assigned at h
  split at h
  · rename_i h1
    obtain ⟨r, hr, rfl⟩ := Option.map_eq_some_iff.mp h
    exact ⟨h1, heq r hr⟩
  split at h
  · rename_i h2
    obtain ⟨xs, hxs, rfl⟩ := Option.map_eq_some_iff.mp h
    exact ⟨h2, hlist xs hxs⟩
  split at h
  · rename_i h3
    obtain ⟨xs, hxs, rfl⟩ := Option.map_eq_some_iff.mp h
    exact ⟨h3, hlist xs hxs⟩
  split at h
  · rename_i h4
    obtain ⟨xs, hxs, rfl⟩ := Option.map_eq_some_iff.mp h
    exact ⟨h4, hlist xs hxs⟩
  · cases h

theorem Field.key_mem (f : Field) : f.key ∈ keyWords := by
  cases f <;> simp [Field.key, keyWords]

/-- No two key words begin alike. -/
theorem keyWord_unique {tmp k k' : Bytes} (hk : k ∈ keyWords) (hk' : k' ∈ keyWords)
    (h : startsWith tmp k = true) (h' : startsWith tmp k' = true) : k = k' := by
  have hwords : ∀ k ∈ keyWords, ∀ k' ∈ keyWords, k.head? = k'.head? → k = k' := by decide
  have hne : ∀ k ∈ keyWords, k ≠ [] := by decide
  obtain ⟨c, s, rfl⟩ := List.exists_cons_of_ne_nil (hne k hk)
  obtain ⟨d, s', rfl⟩ := List.exists_cons_of_ne_nil (hne k' hk')
  exact hwords _ hk _ hk' (by rw [List.head?_cons, List.head?_cons, startsWith_head h h'])

/-- A task with the field set differs in that field only, and not at all if it had the value. -/
theorem Field.update_of_in {f : Field} {cur : Task} (h : f.In cur.decl) : f.update cur = cur := by
  obtain ⟨name, cmd, inputs, outputs, deps, taskHash, resultHash, status, dependents⟩ := cur
  cases f <;>
    (unfold Field.In Task.decl at h
     dsimp only at h
     subst h
     rfl)

theorem taskAfter_eq {line : Bytes} (hlen : line.length ≤ 4095) (ts : TaskList) (cur : Task) :
    taskAfter ts cur line = (assigned (trim line)).elim cur fun f => f.update cur := by
  unfold taskAfter
  by_cases hh : IsHeader line
  · have hnone : assigned (trim line) = none := by
      refine assigned_none fun k hk => ?_
      rw [Bool.eq_false_iff]
      intro hs
      have hne : ∀ k ∈ keyWords, k ≠ [] ∧ k.head? ≠ (ascii "task ").head? := by decide
      obtain ⟨c, s, rfl⟩ := List.exists_cons_of_ne_nil (hne k hk).1
      refine (hne _ hk).2 ?_
      rw [startsWith_head hs hh]
      rfl
    rw [if_pos hh, hnone]
    rfl
  · rw [if_neg hh, parseLine_open hlen hh]
    by_cases hc : Closes line
    · rw [if_pos hc, assigned_none hc.key]
      simp
    · rw [if_neg hc]
      simp

theorem mem_line_of_mem_trim {line : Bytes} {c : UInt8} (h : c ∈ trim line) : c ∈ line :=
  Bytes.mem_of_mem_strip h

section Block

variable {ts : TaskList} {cur : Task} {line : Bytes}

theorem OnlyExactKeys.of_same (h : taskAfter ts cur line = cur) : OnlyExactKeys ts cur line := by
  constructor <;> exact fun hne => absurd (by rw [h]) hne

theorem OnlyExactKeys.of_key {f : Field} (h : taskAfter ts cur line = f.update cur)
    (hkey : keyText line = f.key) : OnlyExactKeys ts cur line := by
  cases f <;> constructor <;>
    first
    | exact fun _ => hkey
    | exact fun hne => absurd (by rw [h]; rfl) hne

/-- A field that changes is the one that is set. -/
theorem OnlyExactKeys.key {f : Field} (ho : OnlyExactKeys ts cur line)
    (h : taskAfter ts cur line = f.update cur) (hin : ¬ f.In cur.decl) : keyText line = f.key := by
  cases f with
  | cmd v => exact ho.cmd (by rw [h]; exact fun he => hin he.symm)
  | inputs xs => exact ho.inputs (by rw [h]; exact fun he => hin he.symm)
  | outputs xs => exact ho.outputs (by rw [h]; exact fun he => hin he.symm)
  | deps xs => exact ho.deps (by rw [h]; exact fun he => hin he.symm)

end Block

/-- **Which lines set a field under its own name.**  A line of a block changes fields only under
their exact keys, if and only if what it has before the `=` is the key word that it begins with,
or the value behind the `=` changes nothing. -/
theorem only_exact_keys_iff (ts : TaskList) (cur : Task) (line : Bytes)
    (hlen : line.length ≤ 4095) :
    OnlyExactKeys ts cur line ↔ NamesKey line ∨ Repeats cur line := by
  have hafter := taskAfter_eq hlen ts cur
  cases ha : assigned (trim line) with
  | none =>
    rw [ha] at hafter
    have hrepeats : Repeats cur line := by
      intro f hf
      rw [ha] at hf
      cases hf
    exact ⟨fun _ => .inr hrepeats, fun _ => .of_same hafter⟩
  | some f =>
    rw [ha] at hafter
    obtain ⟨hstart, h61⟩ := assigned_key ha
    have hrepeats : Repeats cur line ↔ f.In cur.decl := by
      unfold Repeats
      rw [ha]
      simp
    have hnames : NamesKey line ↔ keyText line = f.key := by
      constructor
      · intro h
        exact h f.key f.key_mem hstart (mem_line_of_mem_trim h61)
      · intro h k hk hs _
        rw [h]
        exact keyWord_unique f.key_mem hk hstart hs
    rw [hrepeats, hnames]
    constructor
    · intro h
      by_cases hin : f.In cur.decl
      · exact .inr hin
      · exact .inl (h.key hafter hin)
    · rintro (hkey | hin)
      · exact .of_key hafter hkey
      · exact .of_same (hafter.trans (Field.update_of_in hin))

theorem only_exact_keys_deps :
    OnlyExactKeys [] (taskNew (ascii "a")) (ascii "  deps = b, c") ↔
      NamesKey (ascii "  deps = b, c") ∨ Repeats (taskNew (ascii "a")) (ascii "  deps = b, c") :=
  only_exact_keys_iff [] (taskNew (ascii "a")) (ascii "  deps = b, c") (by decide)

/-- Under a name that only begins with the key word the dependencies are set all the same. -/
theorem prefix_sets_field :
    let cur := { taskNew (ascii "a") with deps := [ascii "b"] }
    (taskAfter [] cur (ascii "deps_note = none")).deps = [ascii "none"] ∧
      ¬ OnlyExactKeys [] cur (ascii "deps_note = none") := by
  intro cur
  have hset : (taskAfter [] cur (ascii "deps_note = none")).deps = [ascii "none"] := by decide
  refine ⟨hset, fun h => ?_⟩
  have hkey := h.deps (by rw [hset]; decide)
  exact absurd hkey (by decide)

end ReproVM
