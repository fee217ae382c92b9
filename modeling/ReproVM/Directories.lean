/-
# Directory creation

`ensure_dir_recursive` calls `mkdir` on every part of the path that ends before a slash and on the
whole path, and takes `EEXIST` for success each time.  `EEXIST` says that something is there, not
that it is a directory: a regular file at the end of the path passes, and one before the end stops
the next call, whose lookup has to go through it.

So this module has `mkdir` look its path up component by component, through directories only,
where the module on the file system resolves a path lexically.  The two agree as long as no
regular file lies before the end of the path (`ensureDir_eq_ensureDirRecursive`).
-/
import ReproVM.BlobPaths
import ReproVM.Lib.Trans

namespace ReproVM

open Bytes (ascii pieces)

variable {fs fs' : FS} {p q : Path} {s x : Bytes} {cs ds : List Bytes}

/-! ## 1. Looking a path up -/

/-- The components of a path string; an empty one does not count. -/
def components (s : Bytes) : List Bytes := (pieces 47 s).filter (· ≠ [])

/-- Where the lookup starts. -/
def startPlace (cwd : Path) (s : Bytes) : Path := if s.head? = some 47 then [] else cwd

namespace FS

/-- One component, which can be looked up in a directory only. -/
def enter (fs : FS) (p : Path) (c : Bytes) : Option Path :=
  if fs.node p = some .dir then some (walk p c) else none

/-- Some components, from the place `p`.  There need be nothing where they lead. -/
def follow (fs : FS) (p : Path) (cs : List Bytes) : Option Path := cs.foldlM fs.enter p

def namei (fs : FS) (s : Bytes) : Option Path := fs.follow (startPlace fs.cwd s) (components s)

/-- `mkdir` on a path that is looked up. -/
def mkdirAt (fs : FS) (s : Bytes) : Mkdir :=
  if s = [] then .error
  else
    match fs.namei s with
    | none => .error
    | some p => if (fs.node p).isSome then .eexist else .made (fs.set p (some .dir))

/-- The calls of the loop: an error other than `EEXIST` ends it. -/
def mkdirsWith (mkdir : FS → Bytes → Mkdir) (fs : FS) : List Bytes → Bool × FS
  | [] => (true, fs)
  | s :: ss =>
    match mkdir fs s with
    | .made fs' => mkdirsWith mkdir fs' ss
    | .eexist => mkdirsWith mkdir fs ss
    | .error => (false, fs)

/-- `ensure_dir_recursive`, over a `mkdir`. -/
def ensureDirRecursiveWith (mkdir : FS → Bytes → Mkdir) (fs : FS) (path : Bytes) : Bool × FS :=
  let tmp := path.take 4095
  if tmp = [] then (false, fs)
  else
    let tmp := if tmp.getLast? = some 47 then tmp.dropLast else tmp
    match tmp with
    | [] => fs.mkdirsWith mkdir [[]]
    | c :: rest => fs.mkdirsWith mkdir (slashCuts [c] rest ++ [c :: rest])

def ensureDirRecursiveAt (fs : FS) (path : Bytes) : Bool × FS :=
  fs.ensureDirRecursiveWith mkdirAt path

theorem mkdirsWith_mkdir (fs : FS) (ss : List Bytes) :
    fs.mkdirsWith FS.mkdir ss = fs.mkdirAll ss := by
  induction ss generalizing fs with
  | nil => rfl
  | cons s ss ih =>
    rw [mkdirsWith, mkdirAll]
    cases fs.mkdir s with
    | made fs' => exact ih fs'
    | eexist => exact ih fs
    | error => rfl

theorem ensureDirRecursiveWith_mkdir (fs : FS) (path : Bytes) :
    fs.ensureDirRecursiveWith FS.mkdir path = fs.ensureDirRecursive path := by
  simp only [ensureDirRecursiveWith, mkdirsWith_mkdir]
  rfl

/-- A property that each `mkdir` keeps. -/
theorem mkdirsWith_preserves {mkdir : FS → Bytes → Mkdir} {P : FS → Prop}
    (hmk : ∀ g s g', P g → mkdir g s = .made g' → P g') (h : P fs) (ss : List Bytes) :
    P (fs.mkdirsWith mkdir ss).2 := by
  induction ss generalizing fs with
  | nil => exact h
  | cons s ss ih =>
    rw [mkdirsWith]
    cases hm : mkdir fs s with
    | made fs' => exact ih (hmk fs s fs' h hm)
    | eexist => exact ih h
    | error => exact h

theorem ensureDirRecursiveWith_preserves {mkdir : FS → Bytes → Mkdir} {P : FS → Prop}
    (hmk : ∀ g s g', P g → mkdir g s = .made g' → P g') (h : P fs) (path : Bytes) :
    P (fs.ensureDirRecursiveWith mkdir path).2 := by
  rw [ensureDirRecursiveWith]
  split
  · exact h
  · dsimp only
    split <;> exact mkdirsWith_preserves hmk h _

/-! ## 2. Components -/

theorem follow_append (fs : FS) (p : Path) (cs ds : List Bytes) :
    fs.follow p (cs ++ ds) = (fs.follow p cs).bind fun q => fs.follow q ds :=
  List.foldlM_append ..

theorem follow_cons (fs : FS) (p : Path) (c : Bytes) (cs : List Bytes) :
    fs.follow p (c :: cs) = (fs.enter p c).bind fun q => fs.follow q cs :=
  List.foldlM_cons ..

theorem enter_of_dir (h : fs.node p = some .dir) (c : Bytes) :
    fs.enter p c = some (walk p c) := if_pos h

end FS

theorem components_of_notMem (h : 47 ∉ s) : components s = if s = [] then [] else [s] := by
  rw [components, Bytes.pieces_of_notMem h]
  by_cases hs : s = [] <;> simp [hs]

theorem components_append (s t : Bytes) :
    components (s ++ 47 :: t) = components s ++ components t := by
  rw [components, Bytes.pieces_append_cons, List.filter_append]
  rfl

/-- A slash at the end changes nothing. -/
theorem components_dropLast (h : s.getLast? = some 47) : components s.dropLast = components s := by
  have hs : s.dropLast ++ [47] = s := List.dropLast_append_getLast? 47 h
  have hcs : components (s.dropLast ++ [47]) = components s.dropLast := by
    rw [components_append]
    exact List.append_nil _
  rw [← hcs, hs]

/-- A slash before the end as well. -/
theorem startPlace_append (hs : s ≠ []) (cwd : Path) (t : Bytes) :
    startPlace cwd (s ++ t) = startPlace cwd s := by
  cases s with
  | nil => exact absurd rfl hs
  | cons c s => rfl

/-- The strings of the calls, from the pieces of the path. -/
theorem slashCuts_eq_scanl {rest y : Bytes} {xs : List Bytes} (done : Bytes)
    (h : pieces 47 rest = y :: xs) :
    FS.slashCuts done rest ++ [done ++ rest] = xs.scanl (fun d x => d ++ 47 :: x) (done ++ y) := by
  induction rest generalizing done y xs with
  | nil =>
    obtain ⟨rfl, rfl⟩ : y = [] ∧ xs = [] := by simpa [pieces, eq_comm] using h
    rfl
  | cons c rest ih =>
    obtain ⟨y', xs', hrest⟩ :=
      List.exists_cons_of_ne_nil (Bytes.pieces_ne_nil (d := 47) (s := rest))
    rw [pieces, hrest] at h
    by_cases hc : c = 47
    · subst hc
      rw [if_pos rfl] at h
      obtain ⟨rfl, rfl⟩ : y = [] ∧ xs = y' :: xs' := by simpa [eq_comm] using h
      have := ih (done ++ [47]) hrest
      rw [FS.slashCuts, if_pos rfl, List.cons_append, List.append_nil, List.scanl_cons]
      simpa [List.append_assoc] using this
    · rw [if_neg hc] at h
      obtain ⟨rfl, rfl⟩ : y = c :: y' ∧ xs = xs' := by simpa [eq_comm] using h
      have := ih (done ++ [c]) hrest
      rw [FS.slashCuts, if_neg hc]
      simpa [List.append_assoc] using this

namespace FS

/-! ## 3. Trees -/

/-- A tree as a program finds it. -/
structure IsTree (fs : FS) : Prop where
  grounded : fs.Grounded
  cwd : fs.node fs.cwd = some .dir

def IsFile (fs : FS) (p : Path) : Prop := ∃ d, fs.node p = some (.file d)

theorem Grounded.above (hg : fs.Grounded) (h : fs.node p = some .dir) (hq : q <+: p) :
    fs.node q = some .dir := by
  obtain ⟨r, rfl⟩ := hq
  induction r using List.reverseRecOn with
  | nil => simpa using h
  | append_singleton r c ih =>
    rw [← List.append_assoc] at h
    refine ih (hg _ c ?_)
    rw [h]
    exact Option.some_ne_none _

theorem IsTree.start (ht : fs.IsTree) (s : Bytes) :
    fs.node (startPlace fs.cwd s) = some .dir := by
  rw [startPlace]
  split
  · exact ht.grounded.above ht.cwd (List.nil_prefix ..)
  · exact ht.cwd

/-- Where a component leads, its directory is there. -/
theorem Grounded.walk (hg : fs.Grounded) (h : fs.node p = some .dir) (c : Bytes) :
    fs.node (walk p c) ≠ none ∨ walk p c = p ++ [c] := by
  rw [ReproVM.walk]
  split
  · exact .inl (by simp [h])
  · split
    · exact .inl (by simp [hg.above h p.dropLast_prefix])
    · exact .inr rfl

/-- **What can be looked up lies in a directory**, if there is nothing there yet. -/
theorem IsTree.parent (ht : fs.IsTree) (h : fs.namei s = some p) (hn : fs.node p = none) :
    ∃ q c, p = q ++ [c] ∧ fs.node q = some .dir := by
  have hstart := ht.start s
  rw [namei] at h
  rcases List.eq_nil_or_concat (components s) with he | ⟨cs, c, he⟩
  · rw [he] at h
    obtain rfl : startPlace fs.cwd s = p := Option.some.inj h
    rw [hstart] at hn
    cases hn
  · rw [he, List.concat_eq_append, follow_append, Option.bind_eq_some_iff] at h
    obtain ⟨q, -, h⟩ := h
    rw [follow_cons, Option.bind_eq_some_iff] at h
    obtain ⟨r, hr, h⟩ := h
    obtain rfl : r = p := Option.some.inj h
    rw [enter] at hr
    split at hr
    · rename_i hq
      obtain rfl := Option.some.inj hr
      exact ⟨q, c, (ht.grounded.walk hq c).resolve_left (not_not_intro hn), hq⟩
    · cases hr

/-- Something new in a directory. -/
theorem IsTree.made (ht : fs.IsTree) (hq : fs.node q = some .dir) (c : Bytes)
    (hn : fs.node (q ++ [c]) = none) (n : Node) : (fs.set (q ++ [c]) (some n)).IsTree where
  grounded := ht.grounded.set_new hn (by rwa [List.dropLast_concat]) n
  cwd := by
    rw [set_cwd, set_node_ne, ht.cwd]
    intro he
    rw [← he, ht.cwd] at hn
    cases hn

/-- A lookup that succeeds still does once directories were added. -/
theorem follow_addDirs (h : fs.follow p cs = some q) (ps : List Path) :
    (fs.addDirs ps).follow p cs = some q := by
  induction cs generalizing p with
  | nil => exact h
  | cons c cs ih =>
    rw [follow_cons, enter] at h
    split at h
    · rename_i hp
      rw [follow_cons, enter_of_dir (addDirs_node_of_some hp ps)]
      exact ih h
    · cases h

theorem isFile_addDirs (ps : List Path) : (fs.addDirs ps).IsFile p ↔ fs.IsFile p := by
  rw [IsFile, IsFile, addDirs_node]
  split
  · rename_i h
    simp [h.1]
  · rfl

theorem dir_of_not_isFile {n : Node} (h : ¬ fs.IsFile p) (hn : fs.node p = some n) :
    fs.node p = some .dir := by
  cases n with
  | dir => exact hn
  | file d => exact absurd ⟨d, hn⟩ h

/-- A place without a regular file becomes a directory. -/
theorem addDirs_dir_of_mem {ps : List Path} (h : ¬ fs.IsFile p) (hp : p ∈ ps) :
    (fs.addDirs ps).node p = some .dir := by
  cases hn : fs.node p with
  | none => rw [addDirs_node, if_pos ⟨hn, hp⟩]
  | some n => exact addDirs_node_of_some (dir_of_not_isFile h hn) ps

theorem addDirs_addDirs_of_mem {ps : List Path} (hp : p ∈ ps) :
    (fs.addDirs [p]).addDirs ps = fs.addDirs ps := by
  rw [addDirs_addDirs]
  ext q
  · rfl
  · have hq : q ∈ [p] ++ ps ↔ q ∈ ps := by
      simp only [List.singleton_append, List.mem_cons, or_iff_right_iff_imp]
      rintro rfl
      exact hp
    simp only [addDirs_node, hq]

theorem addDirs_cons_of_some {n : Node} (h : fs.node p = some n) (ps : List Path) :
    fs.addDirs (p :: ps) = fs.addDirs ps := by
  have hone : fs.addDirs [p] = fs := addDirs_of_exists (by simp [h])
  rw [← List.singleton_append, ← addDirs_addDirs, hone]

/-! ## 4. The calls of the loop -/

/-- Some place before the last that the components lead to is a regular file. -/
def Blocked (fs : FS) (p : Path) (cs : List Bytes) : Prop :=
  ∃ k < cs.length, fs.IsFile ((cs.take k).foldl walk p)

theorem not_blocked_nil (fs : FS) (p : Path) : ¬ fs.Blocked p [] := by
  rintro ⟨k, hk, -⟩
  cases hk

theorem blocked_cons (fs : FS) (p : Path) (c : Bytes) (cs : List Bytes) :
    fs.Blocked p (c :: cs) ↔ fs.IsFile p ∨ fs.Blocked (walk p c) cs := by
  constructor
  · rintro ⟨_ | k, hk, hf⟩
    · exact .inl hf
    · exact .inr ⟨k, Nat.lt_of_succ_lt_succ hk, hf⟩
  · rintro (hf | ⟨k, hk, hf⟩)
    · exact ⟨0, Nat.succ_pos _, hf⟩
    · exact ⟨k + 1, Nat.succ_lt_succ hk, hf⟩

theorem blocked_addDirs (ps : List Path) : (fs.addDirs ps).Blocked p cs ↔ fs.Blocked p cs := by
  simp only [Blocked, isFile_addDirs]

/-- What a `mkdir` does on a path whose lookup succeeds. -/
def MakesFound (mkdir : FS → Bytes → Mkdir) : Prop :=
  ∀ fs s p, fs.IsTree → s ≠ [] → fs.namei s = some p →
    mkdir fs s = if (fs.node p).isSome then .eexist else .made (fs.set p (some .dir))

theorem makesFound_mkdirAt : MakesFound mkdirAt := by
  intro fs s p _ hs h
  rw [mkdirAt, if_neg hs, h]

theorem foldl_walk_filter (p : Path) (xs : List Bytes) :
    (xs.filter (· ≠ [])).foldl walk p = xs.foldl walk p := by
  induction xs generalizing p with
  | nil => rfl
  | cons x xs ih =>
    by_cases hx : x = []
    · simpa [hx, walk] using ih p
    · simpa [hx] using ih (walk p x)

theorem eq_foldl_of_follow (h : fs.follow p cs = some q) : q = cs.foldl walk p := by
  induction cs generalizing p with
  | nil => exact (Option.some.inj h).symm
  | cons c cs ih =>
    rw [follow_cons, enter] at h
    split at h
    · exact ih h
    · cases h

/-- The lexical `mkdir` is one of them. -/
theorem makesFound_mkdir : MakesFound FS.mkdir := by
  intro fs s p ht hs h
  have hres : resolve fs.cwd s = p := by
    rw [eq_foldl_of_follow h, components, foldl_walk_filter]
    rfl
  rw [mkdir, if_neg hs, hres]
  cases hn : fs.node p with
  | some n => rfl
  | none =>
    obtain ⟨q, c, rfl, hq⟩ := ht.parent h hn
    simp [hq]

section Calls

variable {mkdir : FS → Bytes → Mkdir}

theorem IsTree.addDirs (ht : fs.IsTree) (h : fs.namei s = some p) : (fs.addDirs [p]).IsTree := by
  cases hn : fs.node p with
  | some n => rwa [addDirs_of_exists (by simp [hn])]
  | none =>
    obtain ⟨q, c, rfl, hq⟩ := ht.parent h hn
    rw [← set_dir hn]
    exact ht.made hq c hn .dir

theorem mkdirsWith_cons (hmk : MakesFound mkdir) (ht : fs.IsTree) (hs : s ≠ [])
    (h : fs.namei s = some p) (ss : List Bytes) :
    fs.mkdirsWith mkdir (s :: ss) = (fs.addDirs [p]).mkdirsWith mkdir ss := by
  rw [mkdirsWith, hmk fs s p ht hs h]
  cases hn : fs.node p with
  | some n =>
    rw [addDirs_of_exists (by simp [hn])]
    rfl
  | none =>
    rw [← set_dir hn]
    rfl

/-- **The lookup of the next call.**  The place of the last one is something by then; a regular
file stops the lookup unless the next piece is empty. -/
theorem namei_next (hs : s ≠ []) (h : fs.namei s = some p) (hx : 47 ∉ x) :
    (x = [] → (fs.addDirs [p]).namei (s ++ 47 :: x) = some p) ∧
      (x ≠ [] → fs.IsFile p → (fs.addDirs [p]).namei (s ++ 47 :: x) = none) ∧
      (x ≠ [] → ¬ fs.IsFile p → (fs.addDirs [p]).namei (s ++ 47 :: x) = some (walk p x)) := by
  have hnext : (fs.addDirs [p]).namei (s ++ 47 :: x)
      = (fs.addDirs [p]).follow p (components x) := by
    rw [namei, components_append, startPlace_append hs, follow_append, addDirs_cwd,
      follow_addDirs h]
    rfl
  rw [hnext, components_of_notMem hx]
  refine ⟨?_, ?_, ?_⟩
  · intro hnil
    rw [if_pos hnil]
    rfl
  · rintro hne ⟨d, hd⟩
    rw [if_neg hne, follow_cons, enter, addDirs_node_of_some hd, if_neg (by simp)]
    rfl
  · intro hne hfile
    rw [if_neg hne, follow_cons, enter_of_dir (addDirs_dir_of_mem hfile List.mem_cons_self)]
    rfl

/-- **Nothing in the way**: every call succeeds. -/
theorem mkdirsWith_open (hmk : MakesFound mkdir) {xs : List Bytes} (ht : fs.IsTree) (hs : s ≠ [])
    (h : fs.namei s = some p) (hxs : ∀ x ∈ xs, 47 ∉ x)
    (hb : ¬ fs.Blocked p (xs.filter (· ≠ []))) :
    fs.mkdirsWith mkdir (xs.scanl (fun d x => d ++ 47 :: x) s)
      = (true, fs.addDirs ((xs.filter (· ≠ [])).scanl walk p)) := by
  induction xs generalizing fs s p with
  | nil =>
    rw [List.scanl_nil, mkdirsWith_cons hmk ht hs h]
    rfl
  | cons x xs ih =>
    obtain ⟨hnil, -, hdir⟩ := namei_next hs h (hxs x List.mem_cons_self)
    have hs' : s ++ 47 :: x ≠ [] := by simp
    have hxs' := fun y hy => hxs y (List.mem_cons_of_mem _ hy)
    rw [List.scanl_cons, mkdirsWith_cons hmk ht hs h]
    by_cases hx : x = []
    · rw [List.filter_cons_of_neg (by simp [hx])] at hb ⊢
      rw [ih (ht.addDirs h) hs' (hnil hx) hxs' (by rwa [blocked_addDirs]), addDirs_addDirs_of_mem]
      cases xs.filter (· ≠ []) <;> simp
    · rw [List.filter_cons_of_pos (by simp [hx])] at hb ⊢
      rw [blocked_cons, not_or] at hb
      rw [ih (ht.addDirs h) hs' (hdir hx hb.1) hxs' (by rw [blocked_addDirs]; exact hb.2),
        addDirs_addDirs, List.scanl_cons]
      rfl

end Calls

/-- **A regular file in the way**: the next call that has to go through it fails. -/
theorem mkdirsWith_blocked {xs : List Bytes} (ht : fs.IsTree) (hs : s ≠ [])
    (h : fs.namei s = some p) (hxs : ∀ x ∈ xs, 47 ∉ x) (hb : fs.Blocked p (xs.filter (· ≠ []))) :
    (fs.mkdirsWith mkdirAt (xs.scanl (fun d x => d ++ 47 :: x) s)).1 = false := by
  induction xs generalizing fs s p with
  | nil => exact absurd hb (not_blocked_nil fs p)
  | cons x xs ih =>
    obtain ⟨hnil, hfile, hdir⟩ := namei_next hs h (hxs x List.mem_cons_self)
    have hs' : s ++ 47 :: x ≠ [] := by simp
    have hxs' := fun y hy => hxs y (List.mem_cons_of_mem _ hy)
    rw [List.scanl_cons, mkdirsWith_cons makesFound_mkdirAt ht hs h]
    by_cases hx : x = []
    · rw [List.filter_cons_of_neg (by simp [hx])] at hb
      exact ih (ht.addDirs h) hs' (hnil hx) hxs' (by rwa [blocked_addDirs])
    · rw [List.filter_cons_of_pos (by simp [hx]), blocked_cons] at hb
      by_cases hp : fs.IsFile p
      · obtain ⟨tl, htl⟩ : ∃ tl, xs.scanl (fun d x => d ++ 47 :: x) (s ++ 47 :: x)
            = (s ++ 47 :: x) :: tl := by
          cases xs with
          | nil => exact ⟨[], rfl⟩
          | cons y ys => exact ⟨_, List.scanl_cons ..⟩
        rw [htl, mkdirsWith, mkdirAt, if_neg hs', hfile hx hp]
      · exact ih (ht.addDirs h) hs' (hdir hx hp) hxs'
          (by rw [blocked_addDirs]; exact hb.resolve_left hp)

/-! ## 5. The whole call -/

/-- The calls of `ensure_dir_recursive` from the pieces of the path; the two paths that fail
before any of them are the empty one and the root. -/
theorem ensureDirRecursiveWith_calls {path : Bytes} (hlen : path.length ≤ 4095) (hne : path ≠ [])
    (hroot : path ≠ [47]) : ∃ (c : UInt8) (y : Bytes) (xs : List Bytes),
      47 ∉ y ∧ (∀ x ∈ xs, 47 ∉ x) ∧
      components path = components (c :: y) ++ xs.filter (· ≠ []) ∧
      (∀ cwd, startPlace cwd path = startPlace cwd (c :: y)) ∧
      ∀ (mkdir : FS → Bytes → Mkdir) (fs : FS), fs.ensureDirRecursiveWith mkdir path
        = fs.mkdirsWith mkdir (xs.scanl (fun d x => d ++ 47 :: x) (c :: y)) := by
  obtain ⟨tmp, htmp⟩ : ∃ tmp, (if path.getLast? = some 47 then path.dropLast else path) = tmp :=
    ⟨_, rfl⟩
  have hcs : components tmp = components path := by
    rw [← htmp]
    split
    · exact components_dropLast ‹_›
    · rfl
  obtain ⟨e, r, hpath⟩ := List.exists_cons_of_ne_nil hne
  have hhead : tmp ≠ [] ∧ tmp.head? = some e := by
    rw [← htmp, hpath]
    split
    · rename_i hlast
      cases r with
      | nil => exact absurd (by simpa [hpath] using hlast) hroot
      | cons d r => simp
    · simp
  obtain ⟨c, rest, rfl⟩ := List.exists_cons_of_ne_nil hhead.1
  obtain rfl : c = e := Option.some.inj hhead.2
  obtain ⟨y, xs, hp⟩ := List.exists_cons_of_ne_nil (Bytes.pieces_ne_nil (d := 47) (s := rest))
  have hfree : ∀ x ∈ y :: xs, 47 ∉ x := fun x hx => Bytes.notMem_of_mem_pieces (hp ▸ hx)
  refine ⟨c, y, xs, hfree y List.mem_cons_self, fun x hx => hfree x (List.mem_cons_of_mem _ hx),
    ?_, ?_, ?_⟩
  · have hy := components_of_notMem (hfree y List.mem_cons_self)
    have hxs : components rest = components y ++ xs.filter (· ≠ []) := by
      rw [hy, components, hp]
      by_cases hnil : y = [] <;> simp [hnil]
    rw [← hcs]
    by_cases hc : c = 47
    · have hslash : ∀ t, components (47 :: t) = components t := fun t => components_append [] t
      rw [hc, hslash, hslash, hxs]
    · rw [components, components, pieces, if_neg hc, hp, pieces, if_neg hc,
        Bytes.pieces_of_notMem (hfree y List.mem_cons_self)]
      simp
  · intro cwd
    rw [hpath]
    rfl
  · intro mkdir fs
    have hcalls := slashCuts_eq_scanl [c] hp
    rw [ensureDirRecursiveWith, List.take_of_length_le hlen, if_neg hne]
    simp only [htmp]
    exact congrArg _ hcalls

/-- The lookup of the first call, which has one component at most. -/
theorem IsTree.namei_first (ht : fs.IsTree) {c : UInt8} {y : Bytes} (hy : 47 ∉ y) :
    ∃ p, fs.namei (c :: y) = some p ∧
      ∀ ds, (fs.Blocked (startPlace fs.cwd (c :: y)) (components (c :: y) ++ ds) ↔
          fs.Blocked p ds) ∧
        fs.addDirs ((components (c :: y) ++ ds).scanl walk (startPlace fs.cwd (c :: y)))
          = fs.addDirs (ds.scanl walk p) := by
  have hstart := ht.start (c :: y)
  have hone : components (c :: y) = [] ∨ ∃ z, components (c :: y) = [z] := by
    by_cases hc : c = 47
    · have hslash : components (47 :: y) = components y := components_append [] y
      rw [hc, hslash, components_of_notMem hy]
      by_cases hnil : y = [] <;> simp [hnil]
    · rw [components_of_notMem (by simp [hy, Ne.symm hc])]
      simp
  have hfile : ¬ fs.IsFile (startPlace fs.cwd (c :: y)) := by
    rintro ⟨d, hd⟩
    rw [hstart] at hd
    cases hd
  rcases hone with he | ⟨z, he⟩
  · refine ⟨startPlace fs.cwd (c :: y), by rw [namei, he]; rfl, ?_⟩
    intro ds
    rw [he, List.nil_append]
    exact ⟨Iff.rfl, rfl⟩
  · refine ⟨walk (startPlace fs.cwd (c :: y)) z, ?_, ?_⟩
    · rw [namei, he, follow_cons, enter_of_dir hstart]
      rfl
    · intro ds
      rw [he, List.singleton_append, blocked_cons, List.scanl_cons]
      exact ⟨or_iff_right hfile, addDirs_cons_of_some hstart _⟩

/-- **The call makes the missing directories** where no regular file is in the way. -/
theorem ensureDirRecursiveWith_open {mkdir : FS → Bytes → Mkdir} (hmk : MakesFound mkdir)
    {path : Bytes} (ht : fs.IsTree) (hlen : path.length ≤ 4095) (hne : path ≠ [])
    (hroot : path ≠ [47])
    (hb : ¬ fs.Blocked (startPlace fs.cwd path) (components path)) :
    fs.ensureDirRecursiveWith mkdir path
      = (true, fs.addDirs ((components path).scanl walk (startPlace fs.cwd path))) := by
  obtain ⟨c, y, xs, hy, hxs, hcs, hstart, hcalls⟩ := ensureDirRecursiveWith_calls hlen hne hroot
  obtain ⟨p, hp, hfirst⟩ := ht.namei_first (c := c) hy
  rw [hcs, hstart] at hb ⊢
  rw [hcalls, (hfirst _).2]
  exact mkdirsWith_open hmk ht (List.cons_ne_nil c y) hp hxs (fun h => hb ((hfirst _).1.mpr h))

theorem ensureDir_blocked {path : Bytes} (ht : fs.IsTree) (hlen : path.length ≤ 4095)
    (hb : fs.Blocked (startPlace fs.cwd path) (components path)) :
    (fs.ensureDirRecursiveAt path).1 = false := by
  have hne : components path ≠ [] := by
    intro h
    rw [h] at hb
    exact not_blocked_nil _ _ hb
  obtain ⟨c, y, xs, hy, hxs, hcs, hstart, hcalls⟩ :=
    ensureDirRecursiveWith_calls hlen (by rintro rfl; exact hne rfl) (by rintro rfl; exact hne rfl)
  obtain ⟨p, hp, hfirst⟩ := ht.namei_first (c := c) hy
  rw [hcs, hstart, (hfirst _).1] at hb
  rw [ensureDirRecursiveAt, hcalls]
  exact mkdirsWith_blocked ht (List.cons_ne_nil c y) hp hxs hb

/-- **The two lookups agree** where no regular file is in the way. -/
theorem ensureDir_eq_ensureDirRecursive {path : Bytes} (ht : fs.IsTree) (hlen : path.length ≤ 4095)
    (hb : ¬ fs.Blocked (startPlace fs.cwd path) (components path)) :
    fs.ensureDirRecursiveAt path = fs.ensureDirRecursive path := by
  by_cases hne : path = []
  · rw [hne]
    rfl
  · by_cases hroot : path = [47]
    · rw [hroot]
      rfl
    · rw [ensureDirRecursiveAt, ← ensureDirRecursiveWith_mkdir,
        ensureDirRecursiveWith_open makesFound_mkdirAt ht hlen hne hroot hb,
        ensureDirRecursiveWith_open makesFound_mkdir ht hlen hne hroot hb]

theorem mkdirAt_made (h : fs.mkdirAt s = .made fs') :
    ∃ p, fs.namei s = some p ∧ fs' = fs.addDirs [p] := by
  rw [mkdirAt] at h
  split at h
  · cases h
  · split at h
    · cases h
    · rename_i p hp
      split at h
      · cases h
      · rename_i hn
        cases h
        exact ⟨p, hp, set_dir (by simpa using hn)⟩

/-- **Nothing that was there changes**, whatever the call returns. -/
theorem ensureDir_keeps (fs : FS) (path : Bytes) :
    (fs.ensureDirRecursiveAt path).2.cwd = fs.cwd ∧
      ∀ p n, fs.node p = some n → (fs.ensureDirRecursiveAt path).2.node p = some n := by
  refine ensureDirRecursiveWith_preserves (P := fun g => g.cwd = fs.cwd ∧
    ∀ p n, fs.node p = some n → g.node p = some n) ?_ ⟨rfl, fun _ _ h => h⟩ path
  intro g s g' hg hm
  obtain ⟨p, -, rfl⟩ := mkdirAt_made hm
  exact ⟨hg.1, fun q n hq => addDirs_node_of_some (hg.2 q n hq) [p]⟩

theorem IsTree.ensureDir (ht : fs.IsTree) (path : Bytes) :
    (fs.ensureDirRecursiveAt path).2.IsTree := by
  refine ensureDirRecursiveWith_preserves ?_ ht path
  intro g s g' hg hm
  obtain ⟨p, hp, rfl⟩ := mkdirAt_made hm
  exact hg.addDirs hp

theorem foldl_take_mem_scanl (p : Path) {k : Nat} (hk : k ≤ cs.length) :
    (cs.take k).foldl walk p ∈ cs.scanl walk p := by
  induction cs generalizing p k with
  | nil => simp
  | cons c cs ih =>
    rw [List.scanl_cons]
    cases k with
    | zero => exact List.mem_cons_self
    | succ k => exact List.mem_cons_of_mem _ (ih (walk p c) (Nat.le_of_succ_le_succ hk))

theorem follow_of_dirs (h : ∀ k < cs.length, fs.node ((cs.take k).foldl walk p) = some .dir) :
    fs.follow p cs = some (cs.foldl walk p) := by
  induction cs generalizing p with
  | nil => rfl
  | cons c cs ih =>
    have hp : fs.node p = some .dir := h 0 (Nat.succ_pos _)
    rw [follow_cons, enter_of_dir hp]
    exact ih fun k hk => h (k + 1) (Nat.succ_lt_succ hk)

/-! ## 6. What a caller relies on -/

/-- Each part of the path leads to a directory, and so is everything above that. -/
def DirsAlong (fs : FS) (s : Bytes) : Prop :=
  ∀ ds, ds <+: components s → ∃ p, fs.follow (startPlace fs.cwd s) ds = some p ∧
    ∀ q, q <+: p → fs.node q = some .dir

/-- After success, the path is a directory. -/
def EnsuresDir (fs : FS) (path : Bytes) : Prop :=
  (fs.ensureDirRecursiveAt path).1 = true → (fs.ensureDirRecursiveAt path).2.DirsAlong path

/-- The path ends at a regular file, and there is none before. -/
structure EndsAtFile (fs : FS) (s : Bytes) : Prop where
  file : fs.IsFile ((components s).foldl walk (startPlace fs.cwd s))
  before : ¬ fs.Blocked (startPlace fs.cwd s) (components s)

theorem dirsAlong_of_dirs {path : Bytes} (ht : fs'.IsTree) (hc : fs'.cwd = fs.cwd)
    (hdirs : ∀ k ≤ (components path).length,
      fs'.node (((components path).take k).foldl walk (startPlace fs.cwd path)) = some .dir) :
    fs'.DirsAlong path := by
  intro ds hds
  obtain ⟨k, hk, rfl⟩ : ∃ k ≤ (components path).length, ds = (components path).take k :=
    ⟨ds.length, hds.length_le, List.prefix_iff_eq_take.mp hds⟩
  rw [hc]
  refine ⟨_, follow_of_dirs fun j hj => ?_, fun q hq => ht.grounded.above (hdirs k hk) hq⟩
  rw [List.length_take] at hj
  rw [List.take_take, Nat.min_eq_left (by omega)]
  exact hdirs j (by omega)

/-- **`ensure_dir_recursive` keeps what is there, and its success means that the path is a
directory**, exactly unless the path ends at a regular file. -/
theorem ensureDir_dirs_iff {path : Bytes} (ht : fs.IsTree) (hlen : path.length ≤ 4095) :
    ((fs.ensureDirRecursiveAt path).2.cwd = fs.cwd ∧
        ∀ p n, fs.node p = some n → (fs.ensureDirRecursiveAt path).2.node p = some n) ∧
      (fs.EnsuresDir path ↔ ¬ fs.EndsAtFile path) := by
  refine ⟨ensureDir_keeps fs path, ?_⟩
  by_cases hb : fs.Blocked (startPlace fs.cwd path) (components path)
  · have hfalse := ensureDir_blocked ht hlen hb
    exact iff_of_true (fun h => by rw [hfalse] at h; cases h) fun h => h.before hb
  · by_cases hshort : path = [] ∨ path = [47]
    · -- no call succeeds here, and the lookup ends where it starts
      have hfalse : (fs.ensureDirRecursiveAt path).1 = false ∧ components path = [] := by
        rcases hshort with rfl | rfl <;> exact ⟨rfl, rfl⟩
      refine iff_of_true (fun h => by rw [hfalse.1] at h; cases h) ?_
      rintro ⟨⟨d, hd⟩, -⟩
      rw [hfalse.2, List.foldl_nil, ht.start] at hd
      cases hd
    · rw [not_or] at hshort
      have hopen := ensureDirRecursiveWith_open makesFound_mkdirAt ht hlen hshort.1 hshort.2 hb
      have hkeeps := ensureDir_keeps fs path
      have htree := ht.ensureDir path
      rw [EnsuresDir]
      rw [← ensureDirRecursiveAt] at hopen
      constructor
      · rintro h ⟨⟨d, hd⟩, -⟩
        obtain ⟨p, hp, habove⟩ := h (by rw [hopen]) _ (List.prefix_refl _)
        have hdir := habove p (List.prefix_refl _)
        rw [hkeeps.1] at hp
        rw [eq_foldl_of_follow hp, hkeeps.2 _ _ hd] at hdir
        cases hdir
      · intro h _
        refine dirsAlong_of_dirs htree hkeeps.1 fun k hk => ?_
        rw [hopen]
        refine addDirs_dir_of_mem ?_ (foldl_take_mem_scanl _ hk)
        intro hf
        rcases Nat.lt_or_eq_of_le hk with hlt | rfl
        · exact hb ⟨k, hlt, hf⟩
        · rw [List.take_length] at hf
          exact h ⟨hf, hb⟩

end FS

theorem workDir_isTree : workDir.IsTree where
  grounded p c h := by
    have hpc : p ++ [c] = [] ++ [ascii "w"] := by
      by_contra hne
      exact h (if_neg (by simpa using hne))
    obtain rfl := (List.append_inj' hpc rfl).1
    rfl
  cwd := by decide

theorem ensureDir_workDir : (workDir.ensureDirRecursiveAt (ascii "/w//a/b/")).1 = true ∧
    workDir.EnsuresDir (ascii "/w//a/b/") := by
  refine ⟨by decide, ((FS.ensureDir_dirs_iff workDir_isTree (by decide)).2.mpr ?_)⟩
  rintro ⟨⟨d, hd⟩, -⟩
  rw [workDir] at hd
  dsimp only at hd
  split at hd <;> cases hd

/-- The working directory with a regular file in it. -/
def fileDir : FS := workDir.set [ascii "w", ascii "f"] (some (.file (ascii "x")))

theorem fileDir_isTree : fileDir.IsTree :=
  workDir_isTree.made (q := [ascii "w"]) (by decide) (ascii "f") (by decide) _

/-- **A regular file passes** for the directory that was asked for. -/
theorem ensureDir_file : fileDir.IsTree ∧ (ascii "f").length ≤ 4095 ∧
    (fileDir.ensureDirRecursiveAt (ascii "f")).1 = true ∧
    (fileDir.ensureDirRecursiveAt (ascii "f")).2.node [ascii "w", ascii "f"]
      = some (.file (ascii "x")) ∧
    ¬ fileDir.EnsuresDir (ascii "f") := by
  refine ⟨fileDir_isTree, by decide, by decide, by decide, ?_⟩
  intro h
  obtain ⟨p, hp, habove⟩ := h (by decide) _ (List.prefix_refl _)
  obtain rfl : p = [ascii "w", ascii "f"] := FS.eq_foldl_of_follow hp
  exact absurd (habove _ (List.prefix_refl _)) (by decide)

end ReproVM
