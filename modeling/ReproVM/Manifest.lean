/-
# The manifest grammar, and reading back what it renders

The README's grammar with every freedom of layout it leaves: indentation and trailing blanks,
LF or CRLF, blank lines and comments anywhere, blanks around `=` and `,`, the fields of a block
in any order.  `RendersTasks ts lines` says that `lines` is one of the layouts of the tasks `ts`.

`parse_manifest` is a dispatcher over line prefixes with one open task.  Each kind of line has
a lemma that says what it does to the state (`parseLine_junk`, `parseLine_header`,
`parseLine_field`, `parseLine_close`); the body lemma `foldl_body` carries the open task from
its header to its brace, and `parseTasks_of_renders` runs over the whole text.
-/
import ReproVM.Task

namespace ReproVM

open Bytes (ascii pieces unpieces strip Tight)

/-! ## 1. Declarations a manifest can write -/

/-- A byte that a line can hold: neither NUL nor newline. -/
def LineByte (c : UInt8) : Prop := c ≠ 0 ∧ c ≠ 10

instance (c : UInt8) : Decidable (LineByte c) := inferInstanceAs (Decidable (c ≠ 0 ∧ c ≠ 10))

/-- An item of a list field. -/
structure ItemOk (x : Bytes) : Prop where
  ne : x ≠ []
  bytes : ∀ c ∈ x, LineByte c ∧ c ≠ 44
  tight : Tight isBlank x

structure TaskDecl.Valid (t : TaskDecl) : Prop where
  name_ne : t.name ≠ []
  name_bytes : ∀ c ∈ t.name, c ≠ 0 ∧ isspace c = false ∧ c ≠ 123
  cmd_bytes : ∀ v ∈ t.cmd, ∀ c ∈ v, LineByte c
  /-- no leading white space -/
  cmd_head : ∀ v ∈ t.cmd, ∀ c ∈ v.head?, isspace c = false
  /-- no trailing blanks -/
  cmd_last : ∀ v ∈ t.cmd, ∀ c ∈ v.getLast?, isBlank c = false
  inputs : ∀ x ∈ t.inputs, ItemOk x
  outputs : ∀ x ∈ t.outputs, ItemOk x
  deps : ∀ x ∈ t.deps, ItemOk x

/-! ## 2. The grammar -/

/-- Spaces, tabs and carriage returns. -/
def Blanks (b : Bytes) : Prop := ∀ c ∈ b, c = 32 ∨ c = 9 ∨ c = 13

instance (b : Bytes) : Decidable (Blanks b) :=
  inferInstanceAs (Decidable (∀ c ∈ b, c = 32 ∨ c = 9 ∨ c = 13))

/-- A blank line, or a comment line. -/
inductive RendersJunk : Bytes → Prop
  | blank {b : Bytes} : Blanks b → RendersJunk b
  | comment {b r : Bytes} : Blanks b → (∀ c ∈ r, LineByte c) → RendersJunk (b ++ 35 :: r)

/-- `task`, a space, more blanks, the name, blanks, the opening brace. -/
inductive RendersHeader (name : Bytes) : Bytes → Prop
  | mk {a b c d : Bytes} : Blanks a → Blanks b → Blanks c → Blanks d →
      RendersHeader name (a ++ (ascii "task " ++ b ++ name ++ c ++ [123]) ++ d)

/-- The closing brace on its own line. -/
inductive RendersClose : Bytes → Prop
  | mk {a b : Bytes} : Blanks a → Blanks b → RendersClose (a ++ [125] ++ b)

/-- A list of items with blanks around the items and the commas. -/
inductive RendersList : List Bytes → Bytes → Prop
  | nil {b : Bytes} : Blanks b → RendersList [] b
  | one {x b c : Bytes} : Blanks b → Blanks c → RendersList [x] (b ++ x ++ c)
  | cons {x y b c r : Bytes} {xs : List Bytes} : Blanks b → Blanks c →
      RendersList (y :: xs) r → RendersList (x :: y :: xs) (b ++ x ++ c ++ 44 :: r)

/-- A field with its value. -/
inductive Field
  | cmd (v : Bytes)
  | inputs (xs : List Bytes)
  | outputs (xs : List Bytes)
  | deps (xs : List Bytes)

def Field.key : Field → Bytes
  | .cmd _ => ascii "cmd"
  | .inputs _ => ascii "inputs"
  | .outputs _ => ascii "outputs"
  | .deps _ => ascii "deps"

/-- The text of a value, as it stands behind the `=` of its line. -/
inductive RendersValue : Field → Bytes → Prop
  | cmd {v a b : Bytes} : Blanks a → Blanks b → RendersValue (.cmd v) (a ++ v ++ b)
  | inputs {xs : List Bytes} {r : Bytes} : RendersList xs r → RendersValue (.inputs xs) r
  | outputs {xs : List Bytes} {r : Bytes} : RendersList xs r → RendersValue (.outputs xs) r
  | deps {xs : List Bytes} {r : Bytes} : RendersList xs r → RendersValue (.deps xs) r

inductive RendersField (f : Field) : Bytes → Prop
  | mk {a b r : Bytes} : Blanks a → Blanks b → RendersValue f r →
      RendersField f (a ++ (f.key ++ b ++ 61 :: r))

/-- The lines of a block behind its header, up to the closing brace. -/
inductive RendersBody : List Field → List Bytes → Prop
  | close {l : Bytes} : RendersClose l → RendersBody [] [l]
  | junk {fs : List Field} {l : Bytes} {ls : List Bytes} : RendersJunk l → RendersBody fs ls →
      RendersBody fs (l :: ls)
  | field {f : Field} {fs : List Field} {l : Bytes} {ls : List Bytes} : RendersField f l →
      RendersBody fs ls → RendersBody (f :: fs) (l :: ls)

/-- What a field does to the declaration it stands in. -/
def Field.set (t : TaskDecl) : Field → TaskDecl
  | .cmd v => { t with cmd := some v }
  | .inputs xs => { t with inputs := xs }
  | .outputs xs => { t with outputs := xs }
  | .deps xs => { t with deps := xs }

/-- The fields in `fs`, each key at most once, are the fields of `t`; the absent ones are
empty. -/
structure Describes (fs : List Field) (t : TaskDecl) : Prop where
  once : (fs.map Field.key).Nodup
  fields : fs.foldl Field.set ⟨t.name, none, [], [], []⟩ = t

/-- The layouts of a list of tasks, line by line. -/
inductive RendersTasks : List TaskDecl → List Bytes → Prop
  | nil : RendersTasks [] []
  | junk {ts : List TaskDecl} {l : Bytes} {ls : List Bytes} : RendersJunk l →
      RendersTasks ts ls → RendersTasks ts (l :: ls)
  | task {t : TaskDecl} {ts : List TaskDecl} {fs : List Field} {l : Bytes}
      {body ls : List Bytes} : t.Valid → Describes fs t → RendersHeader t.name l →
      RendersBody fs body → RendersTasks ts ls → RendersTasks (t :: ts) (l :: (body ++ ls))

/-- A manifest text of the tasks: the lines of a layout, none longer than 4095 bytes, with a
newline between them. -/
def Renders (ts : List TaskDecl) (text : Bytes) : Prop :=
  ∃ lines, RendersTasks ts lines ∧ (∀ l ∈ lines, l.length ≤ 4095) ∧ text = unpieces 10 lines

/-! ## 3. Blanks -/

theorem Blanks.all_isBlank {b : Bytes} (h : Blanks b) : ∀ c ∈ b, isBlank c = true := by
  intro c hc
  rcases h c hc with rfl | rfl | rfl <;> rfl

theorem Blanks.all_isspace {b : Bytes} (h : Blanks b) : ∀ c ∈ b, isspace c = true := by
  intro c hc
  rcases h c hc with rfl | rfl | rfl <;> rfl

theorem Blanks.lineBytes {b : Bytes} (h : Blanks b) : ∀ c ∈ b, LineByte c := by
  intro c hc
  rcases h c hc with rfl | rfl | rfl <;> exact ⟨by decide, by decide⟩

theorem Blanks.notMem {b : Bytes} (h : Blanks b) {d : UInt8} (hd : isBlank d = false) : d ∉ b :=
  fun hm => by simp [h.all_isBlank d hm] at hd

/-! ## 4. What one line does -/

/-- The loop looks at a line of at most 4095 bytes as a whole. -/
theorem trim_line {a core d : Bytes} (ha : Blanks a) (hd : Blanks d) (hc : Tight isBlank core)
    (hlen : (a ++ core ++ d).length ≤ 4095) : trim ((a ++ core ++ d).take 4095) = core := by
  rw [List.take_of_length_le hlen]
  exact Bytes.strip_wrap ha.all_isBlank hd.all_isBlank hc

theorem parseLine_junk {l : Bytes} (h : RendersJunk l) (hlen : l.length ≤ 4095)
    (st : ParseState) : parseLine st l = st := by
  cases h with
  | blank hb =>
    have htmp : trim (l.take 4095) = [] := by
      rw [List.take_of_length_le hlen]
      exact Bytes.strip_of_all hb.all_isBlank
    simp [parseLine, parseTmp, htmp]
  | @comment b r hb _ =>
    have htmp : (trim ((b ++ 35 :: r).take 4095)).head? = some 35 := by
      rw [List.take_of_length_le hlen, trim, strip, List.dropWhile_append_of_pos hb.all_isBlank,
        List.dropWhile_cons_of_neg (by decide), ← List.nil_append (35 :: r),
        Bytes.rdropWhile_append_cons (by decide)]
      rfl
    simp [parseLine, parseTmp, htmp]

theorem headerName_eq {b name c : Bytes} (hb : Blanks b) (hc : Blanks c)
    (hne : name ≠ []) (hn : ∀ x ∈ name, x ≠ 0 ∧ isspace x = false ∧ x ≠ 123) :
    headerName (ascii "task " ++ b ++ name ++ c ++ [123]) = name := by
  have hdrop : (ascii "task " ++ b ++ name ++ c ++ [123]).drop 5 = b ++ (name ++ (c ++ [123])) := by
    simp only [List.append_assoc]
    rfl
  have hd : (name ++ (c ++ [123])).dropWhile isspace = name ++ (c ++ [123]) := by
    refine Bytes.dropWhile_of_head fun x hx => ?_
    obtain ⟨y, l, rfl⟩ := List.exists_cons_of_ne_nil hne
    have : y = x := by simpa using hx
    simp [← this, (hn y (by simp)).2.1]
  have hstop : (c ++ [123]).takeWhile (fun x => decide (¬ isspace x ∧ x ≠ 123)) = [] := by
    cases c with
    | nil => rfl
    | cons y l => simp [hc.all_isspace y (by simp)]
  rw [headerName, hdrop, List.dropWhile_append_of_pos hb.all_isspace, hd,
    List.takeWhile_append_of_pos (fun x hx => by simp [(hn x hx).2]), hstop, List.append_nil]

theorem parseLine_header {l name : Bytes} (h : RendersHeader name l) (hne : name ≠ [])
    (hn : ∀ x ∈ name, x ≠ 0 ∧ isspace x = false ∧ x ≠ 123) (hlen : l.length ≤ 4095)
    (st : ParseState) : parseLine st l = { st with cur := some (taskNew name) } := by
  obtain ⟨ha, hb, hc, hd⟩ := h
  rename_i a b c d
  have htight : Tight isBlank (ascii "task " ++ b ++ name ++ c ++ [123]) := by
    have h1 : Tight isBlank (ascii "t") := Bytes.tight_of_forall (by decide)
    have h2 : Tight isBlank [123] := Bytes.tight_of_forall (by decide)
    have := h1.append (s := ascii "ask " ++ b ++ name ++ c) h2 (by decide) (by simp)
    simpa [ascii] using this
  have htmp := trim_line ha hd htight hlen
  have hpre : startsWith (ascii "task " ++ b ++ name ++ c ++ [123]) (ascii "task ") = true := by
    simp [startsWith, ascii, List.isPrefixOf]
  have hhead : ¬ ((ascii "task " ++ b ++ name ++ c ++ [123]).head? = some 35 ∨
      ascii "task " ++ b ++ name ++ c ++ [123] = []) := by
    simp [ascii]
  simp only [parseLine, htmp, parseTmp, if_neg hhead, hpre, if_true, headerName_eq hb hc hne hn]

theorem parseLine_close {l : Bytes} (h : RendersClose l) (hlen : l.length ≤ 4095)
    (ts : TaskList) (cur : Task) :
    parseLine ⟨ts, some cur⟩ l = ⟨ts ++ [cur], none⟩ := by
  obtain ⟨ha, hb⟩ := h
  have htmp := trim_line ha hb (Bytes.tight_of_forall (by decide)) hlen
  simp only [parseLine, htmp]
  rfl

/-- A list value is read back, whatever blanks were put around its items. -/
theorem splitCsvArray_of_renders {xs : List Bytes} {r : Bytes} (h : RendersList xs r)
    (hx : ∀ x ∈ xs, ItemOk x) : splitCsvArray r = xs := by
  rw [splitCsvArray_eq]
  have hitem : ∀ {x b c : Bytes}, Blanks b → Blanks c → ItemOk x →
      44 ∉ b ++ x ++ c ∧ trim (b ++ x ++ c) = x := by
    intro x b c hb hc ho
    refine ⟨?_, Bytes.strip_wrap hb.all_isBlank hc.all_isBlank ho.tight⟩
    simp only [List.mem_append, not_or]
    exact ⟨⟨hb.notMem rfl, fun h => (ho.bytes _ h).2 rfl⟩, hc.notMem rfl⟩
  induction h with
  | nil hb =>
    rw [Bytes.pieces_of_notMem (hb.notMem rfl)]
    have : trim _ = [] := Bytes.strip_of_all hb.all_isBlank
    simp [this]
  | @one x b c hb hc =>
    have hok := hx x (by simp)
    obtain ⟨h1, h2⟩ := hitem hb hc hok
    rw [Bytes.pieces_of_notMem h1, List.map_singleton, h2]
    simp [hok.ne]
  | @cons x y b c r xs hb hc _ ih =>
    have hok := hx x (by simp)
    obtain ⟨h1, h2⟩ := hitem hb hc hok
    rw [Bytes.pieces_append_sep h1, List.map_cons, h2,
      List.filter_cons_of_pos (by simp [hok.ne]),
      ih fun x hxs => hx x (List.mem_cons_of_mem _ hxs)]

/-- A field line, trimmed: the key, blanks, `=`, and the value without its trailing blanks. -/
theorem trim_field {a key b r : Bytes} (ha : Blanks a) (hk : ∀ c ∈ key.head?, isBlank c = false)
    (hne : key ≠ []) (hlen : (a ++ (key ++ b ++ 61 :: r)).length ≤ 4095) :
    trim ((a ++ (key ++ b ++ 61 :: r)).take 4095) = key ++ b ++ 61 :: r.rdropWhile isBlank := by
  rw [List.take_of_length_le hlen, trim, strip, List.dropWhile_append_of_pos ha.all_isBlank]
  have hd : (key ++ b ++ 61 :: r).dropWhile isBlank = key ++ b ++ 61 :: r := by
    refine Bytes.dropWhile_of_head fun c hc => ?_
    obtain ⟨y, l, rfl⟩ := List.exists_cons_of_ne_nil hne
    have : y = c := by simpa using hc
    simp [← this, hk y rfl]
  rw [hd, Bytes.rdropWhile_append_cons (by decide)]

theorem afterEq_field {key b r : Bytes} (hk : 61 ∉ key) (hb : Blanks b) :
    afterEq (key ++ b ++ 61 :: r) = some r := by
  have hpos : ∀ c ∈ key ++ b, decide (c ≠ 61) = true := by
    intro c hc
    rcases List.mem_append.mp hc with h | h
    · exact decide_eq_true fun he => hk (he ▸ h)
    · exact decide_eq_true fun he => hb.notMem rfl (he ▸ h)
  rw [afterEq, strchr, List.dropWhile_append_of_pos hpos, List.dropWhile_cons_of_neg (by decide)]
  rfl

theorem listField_of_renders {xs : List Bytes} {key b r : Bytes} (hk : 61 ∉ key) (hb : Blanks b)
    (h : RendersList xs r) (hx : ∀ x ∈ xs, ItemOk x) :
    listField (key ++ b ++ 61 :: r.rdropWhile isBlank) = some xs := by
  rw [listField, afterEq_field hk hb, Option.map_some, ← splitCsvArray_of_renders h hx,
    splitCsvArray_eq, splitCsvArray_eq]
  have h44 : isBlank 44 = false := by decide
  obtain ⟨t, ht, hr⟩ := Bytes.exists_rdropWhile isBlank r
  have hstrip : trim (r.rdropWhile isBlank) = strip isBlank r := by
    conv_rhs => rw [hr]
    exact (Bytes.strip_append_of_all ht).symm
  have hmap := Bytes.map_strip_pieces_strip h44 r
  rw [← hstrip] at hmap
  exact congrArg (fun l => some (l.filter (· ≠ []))) hmap

/-- What the parser makes of a field in the open task. -/
def Field.update (cur : Task) : Field → Task
  | .cmd v => { cur with cmd := some v }
  | .inputs xs => { cur with inputs := xs }
  | .outputs xs => { cur with outputs := xs }
  | .deps xs => { cur with deps := xs }

/-- A field whose value the grammar allows. -/
def Field.Ok : Field → Prop
  | .cmd v => (∀ c ∈ v.head?, isspace c = false) ∧ (∀ c ∈ v.getLast?, isBlank c = false)
  | .inputs xs => ∀ x ∈ xs, ItemOk x
  | .outputs xs => ∀ x ∈ xs, ItemOk x
  | .deps xs => ∀ x ∈ xs, ItemOk x

theorem Field.key_head (f : Field) : ∀ c ∈ f.key.head?, isBlank c = false := by
  cases f <;> simp [Field.key, ascii, isBlank]

theorem Field.key_ne (f : Field) : f.key ≠ [] := by
  cases f <;> simp [Field.key, ascii]

theorem Field.key_eq (f : Field) : 61 ∉ f.key := by
  cases f <;> simp [Field.key, ascii]

/-- **A field line sets its field of the open task**, and nothing else. -/
theorem parseLine_field {f : Field} {l : Bytes} (h : RendersField f l) (hf : f.Ok)
    (hlen : l.length ≤ 4095) (ts : TaskList) (cur : Task) :
    parseLine ⟨ts, some cur⟩ l = ⟨ts, some (f.update cur)⟩ := by
  obtain ⟨ha, hb, hv⟩ := h
  rename_i a b r
  have htmp := trim_field ha f.key_head f.key_ne hlen
  cases hv with
  | @cmd v a' b' ha' hb' =>
    have hval : ((a' ++ v ++ b').rdropWhile isBlank).dropWhile isspace = v := by
      rw [Bytes.rdropWhile_append_of_all hb'.all_isBlank]
      rcases eq_or_ne v [] with rfl | hne
      · rw [List.append_nil, List.rdropWhile_eq_nil_iff.mpr ha'.all_isBlank]
        rfl
      · have hlast : (a' ++ v).rdropWhile isBlank = a' ++ v := by
          refine Bytes.rdropWhile_of_last fun c hc => ?_
          rw [List.getLast?_append_of_ne_nil _ hne] at hc
          simp [hf.2 c hc]
        rw [hlast, List.dropWhile_append_of_pos ha'.all_isspace]
        exact Bytes.dropWhile_of_head fun c hc => by simp [hf.1 c hc]
    have heq := afterEq_field (r := (a' ++ v ++ b').rdropWhile isBlank) (Field.cmd v).key_eq hb
    generalize (a' ++ v ++ b').rdropWhile isBlank = r' at htmp heq hval
    simp only [Field.key, ascii] at heq
    simp at heq
    rw [parseLine, htmp]
    simp [parseTmp, Field.key, ascii, heq, hval, Field.update, startsWith]
  | @inputs xs _ hr =>
    have heq := listField_of_renders (Field.inputs xs).key_eq hb hr hf
    simp only [Field.key, ascii] at heq
    simp at heq
    rw [parseLine, htmp]
    simp [parseTmp, Field.key, ascii, heq, Field.update, startsWith]
  | @outputs xs _ hr =>
    have heq := listField_of_renders (Field.outputs xs).key_eq hb hr hf
    simp only [Field.key, ascii] at heq
    simp at heq
    rw [parseLine, htmp]
    simp [parseTmp, Field.key, ascii, heq, Field.update, startsWith]
  | @deps xs _ hr =>
    have heq := listField_of_renders (Field.deps xs).key_eq hb hr hf
    simp only [Field.key, ascii] at heq
    simp at heq
    rw [parseLine, htmp]
    simp [parseTmp, Field.key, ascii, heq, Field.update, startsWith]

/-! ## 5. Blocks -/

/-- `f` is a field of `t`. -/
def Field.In (t : TaskDecl) : Field → Prop
  | .cmd v => t.cmd = some v
  | .inputs xs => t.inputs = xs
  | .outputs xs => t.outputs = xs
  | .deps xs => t.deps = xs

theorem Field.in_set (t : TaskDecl) (f : Field) : f.In (Field.set t f) := by
  cases f <;> rfl

theorem Field.in_set_of_ne {t : TaskDecl} {f g : Field} (h : f.In t) (hne : f.key ≠ g.key) :
    f.In (Field.set t g) := by
  cases f <;> cases g <;> first | exact h | exact absurd rfl hne

theorem Field.in_foldl_of_ne {f : Field} :
    ∀ (fs : List Field) {t : TaskDecl}, f.In t → f.key ∉ fs.map Field.key →
      f.In (fs.foldl Field.set t)
  | [], _, h, _ => h
  | g :: fs, _, h, hn => by
    rw [List.map_cons, List.mem_cons, not_or] at hn
    exact in_foldl_of_ne fs (in_set_of_ne h hn.1) hn.2

/-- With each key at most once, no field of the block overwrites another. -/
theorem Field.in_of_mem {f : Field} :
    ∀ (fs : List Field) (t : TaskDecl), (fs.map Field.key).Nodup → f ∈ fs →
      f.In (fs.foldl Field.set t)
  | g :: fs, t, hnd, hf => by
    obtain ⟨hg, hnd⟩ := List.nodup_cons.mp hnd
    rcases List.mem_cons.mp hf with rfl | hf
    · exact in_foldl_of_ne fs (in_set t f) hg
    · exact in_of_mem fs _ hnd hf

/-- The fields of a valid declaration are ones the grammar allows. -/
theorem Field.ok_of_in {t : TaskDecl} {f : Field} (ht : t.Valid) (h : f.In t) : f.Ok := by
  cases f with
  | cmd v => exact ⟨ht.cmd_head v h, ht.cmd_last v h⟩
  | inputs xs => exact fun x hx => ht.inputs x ((show t.inputs = xs from h) ▸ hx)
  | outputs xs => exact fun x hx => ht.outputs x ((show t.outputs = xs from h) ▸ hx)
  | deps xs => exact fun x hx => ht.deps x ((show t.deps = xs from h) ▸ hx)

theorem Field.update_decl (cur : Task) (f : Field) :
    (f.update cur).decl = Field.set cur.decl f := by
  cases f <;> rfl

theorem Field.foldl_update_decl (fs : List Field) (cur : Task) :
    (fs.foldl Field.update cur).decl = fs.foldl Field.set cur.decl := by
  induction fs generalizing cur with
  | nil => rfl
  | cons f fs ih => rw [List.foldl_cons, List.foldl_cons, ih, update_decl]

/-- **The body of a block**: the open task takes its fields in and is closed. -/
theorem foldl_body {fs : List Field} {body : List Bytes} (h : RendersBody fs body)
    (hok : ∀ f ∈ fs, f.Ok) (hlen : ∀ l ∈ body, l.length ≤ 4095) (ts : TaskList) (cur : Task) :
    body.foldl parseLine ⟨ts, some cur⟩ = ⟨ts ++ [fs.foldl Field.update cur], none⟩ := by
  induction h generalizing cur with
  | close hl => exact parseLine_close hl (hlen _ (by simp)) ts cur
  | junk hl _ ih =>
    rw [List.foldl_cons, parseLine_junk hl (hlen _ (by simp))]
    exact ih hok (fun l hm => hlen l (List.mem_cons_of_mem _ hm)) cur
  | field hl _ ih =>
    rw [List.foldl_cons, parseLine_field hl (hok _ (by simp)) (hlen _ (by simp))]
    exact ih (fun f hf => hok f (List.mem_cons_of_mem _ hf))
      (fun l hm => hlen l (List.mem_cons_of_mem _ hm)) _

/-! ## 6. Whole texts -/

/-- The loop over the lines of a layout appends the tasks it lays out. -/
theorem foldl_renders {ts : List TaskDecl} {lines : List Bytes} (h : RendersTasks ts lines)
    (hlen : ∀ l ∈ lines, l.length ≤ 4095) (done : TaskList) :
    ∃ new : TaskList, new.map Task.decl = ts ∧
      lines.foldl parseLine ⟨done, none⟩ = ⟨done ++ new, none⟩ := by
  induction h generalizing done with
  | nil => exact ⟨[], rfl, by simp⟩
  | junk hl _ ih =>
    rw [List.foldl_cons, parseLine_junk hl (hlen _ (by simp))]
    exact ih (fun l hm => hlen l (List.mem_cons_of_mem _ hm)) done
  | @task t ts fs l body ls hv hd hl hb _ ih =>
    have hok : ∀ f ∈ fs, f.Ok := fun f hf =>
      Field.ok_of_in hv (hd.fields ▸ Field.in_of_mem fs _ hd.once hf)
    rw [List.foldl_cons, parseLine_header hl hv.name_ne hv.name_bytes (hlen l (by simp)),
      List.foldl_append, foldl_body hb hok (fun m hm => hlen m (by simp [hm]))]
    obtain ⟨new, hnew, hfold⟩ := ih (fun m hm => hlen m (by simp [hm]))
      (done ++ [fs.foldl Field.update (taskNew t.name)])
    refine ⟨fs.foldl Field.update (taskNew t.name) :: new, ?_, by simpa using hfold⟩
    rw [List.map_cons, hnew, Field.foldl_update_decl]
    exact congrArg (· :: ts) hd.fields

/-- A line of a layout is a line: it holds no newline and no NUL. -/
theorem RendersJunk.lineBytes {l : Bytes} (h : RendersJunk l) : ∀ c ∈ l, LineByte c := by
  cases h with
  | blank hb => exact hb.lineBytes
  | comment hb hr =>
    intro c hc
    simp only [List.mem_append, List.mem_cons] at hc
    rcases hc with hc | rfl | hc
    · exact hb.lineBytes c hc
    · exact ⟨by decide, by decide⟩
    · exact hr c hc

theorem RendersHeader.lineBytes {l name : Bytes} (h : RendersHeader name l)
    (hn : ∀ x ∈ name, x ≠ 0 ∧ isspace x = false ∧ x ≠ 123) : ∀ c ∈ l, LineByte c := by
  obtain ⟨ha, hb, hc, hd⟩ := h
  intro x hx
  simp only [List.mem_append, List.mem_singleton] at hx
  rcases hx with (hx | (((hx | hx) | hx) | hx) | rfl) | hx
  · exact ha.lineBytes x hx
  · revert x
    simp [ascii, LineByte]
  · exact hb.lineBytes x hx
  · refine ⟨(hn x hx).1, ?_⟩
    rintro rfl
    exact absurd (hn 10 hx).2.1 (by decide)
  · exact hc.lineBytes x hx
  · exact ⟨by decide, by decide⟩
  · exact hd.lineBytes x hx

theorem RendersClose.lineBytes {l : Bytes} (h : RendersClose l) : ∀ c ∈ l, LineByte c := by
  obtain ⟨ha, hb⟩ := h
  intro x hx
  simp only [List.mem_append, List.mem_singleton] at hx
  rcases hx with (hx | rfl) | hx
  · exact ha.lineBytes x hx
  · exact ⟨by decide, by decide⟩
  · exact hb.lineBytes x hx

theorem RendersList.lineBytes {xs : List Bytes} {r : Bytes} (h : RendersList xs r)
    (hx : ∀ x ∈ xs, ItemOk x) : ∀ c ∈ r, LineByte c := by
  induction h with
  | nil hb => exact hb.lineBytes
  | one hb hc =>
    intro c hm
    simp only [List.mem_append] at hm
    rcases hm with (hm | hm) | hm
    · exact hb.lineBytes c hm
    · exact ((hx _ (by simp)).bytes c hm).1
    · exact hc.lineBytes c hm
  | cons hb hc _ ih =>
    intro c hm
    simp only [List.mem_append, List.mem_cons] at hm
    rcases hm with ((hm | hm) | hm) | rfl | hm
    · exact hb.lineBytes c hm
    · exact ((hx _ (by simp)).bytes c hm).1
    · exact hc.lineBytes c hm
    · exact ⟨by decide, by decide⟩
    · exact ih (fun x hxs => hx x (List.mem_cons_of_mem _ hxs)) c hm

theorem RendersField.lineBytes {t : TaskDecl} {f : Field} {l : Bytes} (h : RendersField f l)
    (ht : t.Valid) (hf : f.In t) : ∀ c ∈ l, LineByte c := by
  obtain ⟨ha, hb, hv⟩ := h
  rename_i a b r
  have hkey : ∀ c ∈ f.key, LineByte c := by
    cases f <;> simp [Field.key, ascii, LineByte]
  have hr : ∀ c ∈ r, LineByte c := by
    cases hv with
    | cmd ha' hb' =>
      intro c hm
      simp only [List.mem_append] at hm
      rcases hm with (hm | hm) | hm
      · exact ha'.lineBytes c hm
      · exact ht.cmd_bytes _ hf c hm
      · exact hb'.lineBytes c hm
    | inputs hl => exact hl.lineBytes (Field.ok_of_in ht hf)
    | outputs hl => exact hl.lineBytes (Field.ok_of_in ht hf)
    | deps hl => exact hl.lineBytes (Field.ok_of_in ht hf)
  intro c hm
  simp only [List.mem_append, List.mem_cons] at hm
  rcases hm with hm | (hm | hm) | rfl | hm
  · exact ha.lineBytes c hm
  · exact hkey c hm
  · exact hb.lineBytes c hm
  · exact ⟨by decide, by decide⟩
  · exact hr c hm

theorem RendersBody.lineBytes {t : TaskDecl} {fs : List Field} {body : List Bytes}
    (h : RendersBody fs body) (ht : t.Valid) (hf : ∀ f ∈ fs, f.In t) :
    ∀ l ∈ body, ∀ c ∈ l, LineByte c := by
  induction h with
  | close hl => simpa using hl.lineBytes
  | junk hl _ ih =>
    rintro m hm
    rcases List.mem_cons.mp hm with rfl | hm
    · exact hl.lineBytes
    · exact ih hf m hm
  | field hl _ ih =>
    rintro m hm
    rcases List.mem_cons.mp hm with rfl | hm
    · exact hl.lineBytes ht (hf _ (by simp))
    · exact ih (fun f hfs => hf f (List.mem_cons_of_mem _ hfs)) m hm

theorem RendersTasks.lineBytes {ts : List TaskDecl} {lines : List Bytes}
    (h : RendersTasks ts lines) : ∀ l ∈ lines, ∀ c ∈ l, LineByte c := by
  induction h with
  | nil => simp
  | junk hl _ ih =>
    rintro m hm
    rcases List.mem_cons.mp hm with rfl | hm
    · exact hl.lineBytes
    · exact ih m hm
  | task hv hd hl hb _ ih =>
    rintro m hm
    rcases List.mem_cons.mp hm with rfl | hm
    · exact hl.lineBytes hv.name_bytes
    · rcases List.mem_append.mp hm with hm | hm
      · exact hb.lineBytes hv (fun f hf => hd.fields ▸ Field.in_of_mem _ _ hd.once hf) m hm
      · exact ih m hm

/-- The tokens of a text are its lines, as far as the parser can tell. -/
theorem foldl_tokens {lines : List Bytes} (h : ∀ l ∈ lines, ∀ c ∈ l, LineByte c)
    (st : ParseState) :
    (strtokAll 10 (cstr (unpieces 10 lines))).foldl parseLine st = lines.foldl parseLine st := by
  have hnul : cstr (unpieces 10 lines) = unpieces 10 lines := by
    refine List.takeWhile_eq_self_iff.mpr fun c hc => ?_
    refine decide_eq_true ?_
    rcases Bytes.mem_unpieces hc with rfl | ⟨l, hl, hc⟩
    · decide
    · exact (h l hl c hc).1
  have hempty : ∀ st : ParseState, parseLine st [] = st :=
    parseLine_junk (.blank (by simp [Blanks])) (by simp)
  have hskip : ∀ (ls : List Bytes) (st : ParseState),
      (ls.filter (· ≠ [])).foldl parseLine st = ls.foldl parseLine st := by
    intro ls
    induction ls with
    | nil => exact fun _ => rfl
    | cons l ls ih =>
      intro st
      by_cases hl : l = []
      · simp only [hl, List.foldl_cons, hempty, ← ih]
        simp
      · simp [hl, ← ih]
  rw [hnul, strtokAll, hskip]
  rcases eq_or_ne lines [] with rfl | hne
  · exact hempty st
  · rw [Bytes.pieces_unpieces hne fun l hl hm => (h l hl 10 hm).2 rfl]

/-- **The manifest round trip.**  Whatever layout of a list of tasks the grammar allows,
`parse_manifest` returns exactly these tasks, in order. -/
theorem parseManifest_renders {ts : List TaskDecl} {text : Bytes} (h : Renders ts text) :
    (parseManifest text).map Task.decl = ts := by
  obtain ⟨lines, hr, hlen, rfl⟩ := h
  obtain ⟨new, hnew, hfold⟩ := foldl_renders hr hlen []
  rw [parseManifest, buildDependents_map_decl, parseTasks, foldl_tokens hr.lineBytes, hfold]
  simpa using hnew

/-- A layout with CRLF, a comment inside the block, and a command that holds `=`, `}` and `#`. -/
theorem parseManifest_renders_layout :
    (parseManifest (unpieces 10
        [ascii " task \ta \x7b\r", ascii "  cmd =\tx = \x7d # y\r", ascii "# \x7d\r", ascii "deps= b ,c ",
          ascii "\x7d\r", []])).map Task.decl =
      [⟨ascii "a", some (ascii "x = \x7d # y"), [], [], [ascii "b", ascii "c"]⟩] := by
  have hitem : ∀ x : UInt8, x = 98 ∨ x = 99 → ItemOk [x] := by
    rintro x (rfl | rfl) <;>
      exact ⟨by decide, by decide, Bytes.tight_of_forall (by decide)⟩
  refine parseManifest_renders ⟨_, ?_, by decide, rfl⟩
  refine @RendersTasks.task ⟨ascii "a", some (ascii "x = \x7d # y"), [], [], [ascii "b", ascii "c"]⟩ []
    [.cmd (ascii "x = \x7d # y"), .deps [ascii "b", ascii "c"]] _
    [ascii "  cmd =\tx = \x7d # y\r", ascii "# \x7d\r", ascii "deps= b ,c ", ascii "\x7d\r"] [[]]
    ?_ ⟨by decide, rfl⟩ ?_ ?_ (.junk (.blank (by decide)) .nil)
  · refine ⟨by decide, by decide, ?_, ?_, ?_, by simp, by simp, ?_⟩
    · rintro v ⟨⟩; decide
    · rintro v ⟨⟩; simp [ascii, isspace]
    · rintro v ⟨⟩; simp [ascii, isBlank]
    · simpa using ⟨hitem 98 (Or.inl rfl), hitem 99 (Or.inr rfl)⟩
  · exact .mk (a := ascii " ") (b := ascii "\t") (c := ascii " ") (d := ascii "\r") (by decide)
      (by decide) (by decide) (by decide)
  · refine .field (.mk (f := .cmd (ascii "x = \x7d # y")) (a := ascii "  ") (b := ascii " ")
      (r := ascii "\tx = \x7d # y\r") (by decide) (by decide)
      (.cmd (v := ascii "x = \x7d # y") (a := ascii "\t") (b := ascii "\r") (by decide) (by decide))) ?_
    refine .junk (.comment (b := []) (r := ascii " \x7d\r") (by decide) (by decide)) ?_
    refine .field (.mk (f := .deps [ascii "b", ascii "c"]) (a := []) (b := [])
      (r := ascii " b ,c ") (by decide) (by decide) (.deps ?_)) ?_
    · exact .cons (x := ascii "b") (b := ascii " ") (c := ascii " ") (r := ascii "c ") (by decide)
        (by decide) (.one (x := ascii "c") (b := []) (c := ascii " ") (by decide) (by decide))
    · exact .close (.mk (a := []) (b := ascii "\r") (by decide) (by decide))

end ReproVM
