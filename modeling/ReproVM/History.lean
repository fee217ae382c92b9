/-
# What a skipped task finds

The record under a key was written by a call with the same text (`eq_of_keyAt_eq`), so with the
same command and the same contents of inputs, but not one by one at the same paths, and perhaps
for other outputs.  A hit restores what that call's command gave.  Where two inputs are exchanged
in between, this is not what the command would give now.
-/
import ReproVM.KeyText
import ReproVM.Sessions

namespace ReproVM

open Bytes (ascii)
open Lib (Run)

variable {F : Command} {tr : List Event} {fs fs₁ fs' : FS} {task : Task} {sys : System}

/-! ## 1. One key -/

/-- What the inputs of a call hashed to. -/
theorem CallOk.hashes {cwd : Path} {c : Call} (h : CallOk cwd c) :
    c.task.inputs.map (hashAt c.fs) = c.contents.map blobHash ∧ ∀ d ∈ c.contents, d ∈ c.data := by
  have hread : ∀ p ∈ c.task.inputs, c.fs.read p = some ((c.fs.read p).getD []) := by
    intro p hp
    obtain ⟨d, hd⟩ := Option.ne_none_iff_exists'.mp (h.inputs p hp)
    rw [hd, Option.getD_some]
  refine ⟨?_, fun d hd => ?_⟩
  · rw [Call.contents, List.map_map]
    refine List.map_congr_left fun p hp => ?_
    rw [hashAt, hread p hp]
    rfl
  · obtain ⟨p, hp, rfl⟩ := List.mem_map.mp hd
    exact .inl ⟨p, hp, hread p hp⟩

/-- **Calls with one hash** have one command and the same contents. -/
theorem eq_of_keyAt_eq {S : Set Bytes} (hS : CollisionFree S) {cwd : Path} {c c' : Call}
    (hc : CallOk cwd c) (hc' : CallOk cwd c') (hd : c.data ⊆ S) (hd' : c'.data ⊆ S)
    (h : keyAt c.fs c.task = keyAt c'.fs c'.task) : c.cmd = c'.cmd ∧ c.contents.Perm c'.contents := by
  have htext : textAt c.fs c.task = textAt c'.fs c'.task :=
    blobHash_inj hS (hd (.inr (.inl rfl))) (hd' (.inr (.inl rfl))) h
  obtain ⟨hh, hmem⟩ := hc.hashes
  obtain ⟨hh', hmem'⟩ := hc'.hashes
  have hhash : ∀ l : List Bytes, ∀ x ∈ l.map blobHash, IsHash x := by
    intro l x hx
    obtain ⟨d, -, rfl⟩ := List.mem_map.mp hx
    exact isHash_blobHash d
  rw [textAt, textAt, hh, hh', taskText_eq_iff hc.newline hc'.newline
    (by rw [← hh, List.length_map]) (by rw [← hh', List.length_map]) (hhash _) (hhash _)] at htext
  obtain ⟨hcmd, hperm, -⟩ := htext
  exact ⟨hcmd, perm_of_map_blobHash hS (fun d hm => hd (hmem d hm)) (fun d hm => hd' (hmem' d hm)) hperm⟩

/-! ## 2. One hit -/

/-- What a hit leaves at an output that the call of the record has too. -/
theorem WrittenBy.restored {S : Set Bytes} (hS : CollisionFree S) {key : Bytes} {c : Call}
    (h : WrittenBy F fs₁ key c) (hd : c.data ⊆ S) (hi : StoreInv S fs₁) {r : Record}
    (hr : r.outputs = outputEntries c.exec.fs c.task.outputs) {out : Bytes}
    (hout : out ∈ task.outputs) (hout' : out ∈ c.task.outputs) (hw : fs₁.Writable out) :
    (fs₁.setFiles (restoreWrites fs₁ task.outputs r.outputs)).read out
      = some (F c.cmd c.inputs out) := by
  have hval := h.outputs out hout'
  have hentry : (out, blobHash (F c.cmd c.inputs out)) ∈ r.outputs := by
    rw [hr]
    refine List.mem_filterMap.mpr ⟨out, hout', ?_⟩
    rw [hval, Option.map_some]
  obtain ⟨x, hx⟩ := lastWrite_isSome (mem_restoreWrites.mpr ⟨_, hentry, hout, hw, rfl⟩)
  have hnode : (fs₁.setFiles (restoreWrites fs₁ task.outputs r.outputs)).node (resolve fs₁.cwd out)
      = some (.file x) := by
    rw [FS.setFiles_node, hx]
    rfl
  have hread : (fs₁.setFiles (restoreWrites fs₁ task.outputs r.outputs)).read out = some x := by
    refine FS.read_of_node hw.name ?_
    rw [FS.setFiles_cwd, hnode]
  -- the last write there is of an output with this place
  obtain ⟨entry, he, -, hwe, hpx⟩ := mem_restoreWrites.mp (lastWrite_mem hx)
  obtain ⟨hplace, rfl⟩ := Prod.mk.inj hpx
  rw [hr] at he
  have hint : Intact fs₁ entry.2 := h.intact entry he
  obtain ⟨out', hout', hsome⟩ := List.mem_filterMap.mp he
  obtain ⟨d, hd', rfl⟩ := Option.map_eq_some_iff.mp hsome
  have hsame : c.exec.fs.read out' = c.exec.fs.read out := by
    refine FS.read_of_resolve_eq hwe.name hw.name ?_
    rw [h.cwd]
    exact hplace.symm
  obtain rfl : d = F c.cmd c.inputs out := by
    rw [hsame, hval] at hd'
    exact (Option.some.inj hd').symm
  rw [hread]
  congr 1
  refine blobHash_inj hS ?_ (hd (.inr (.inr ⟨h.ran, out, ‹_›, hval⟩))) (blobHash_blobAt hi.ok hint)
  obtain ⟨-, data, hobj⟩ := hint
  obtain ⟨d', hd'', hn, -⟩ := hi.object hobj
  rw [blobAt, hobj]
  cases hn
  exact hd''

/-- **What a skipped task finds.**  An earlier call of the history succeeded for the same command
and the same contents of inputs, up to their order and their paths; and each output that both
calls declare and that can be written holds what the command gave in the earlier one. -/
theorem skipped_outputs {fs₀ : FS} (h : NoStore fs₀) {s : Session}
    (hrun : Run (SessionStep F) ⟨(casInit fs₀ (ascii ".")).2, .idle⟩ tr s)
    (hcf : CollisionFree (involved tr)) {before after : List Event} {c : Call}
    (htr : tr = before ++ .call c :: after) (hskip : c.status = .skipped) :
    ∃ c₀, .call c₀ ∈ before ∧ c₀.status = .success ∧ c₀.cmd = c.cmd ∧
      c₀.contents.Perm c.contents ∧ ∀ out ∈ c.task.outputs, out ∈ c₀.task.outputs →
        c.fs.Writable out → c.exec.fs.read out = some (F c.cmd c₀.inputs out) := by
  subst htr
  obtain ⟨s₁, s₂, hbefore, hstep, -⟩ := hrun.split_step
  have hi : SessionInv F before s₁ := sessionInv h hbefore
  have hsub : involved before ⊆ involved (before ++ .call c :: after) :=
    involved_mono (List.subset_append_left ..)
  have hdata : ∀ c', Event.call c' ∈ before ++ .call c :: after →
      c'.data ⊆ involved (before ++ .call c :: after) := fun c' hc' =>
    data_subset_involved (e := .call c') hc'
  have hmem : Event.call c ∈ before ++ .call c :: after := by simp
  generalize hS : involved (before ++ .call c :: after) = S at hcf hsub hdata
  clear hS hbefore hrun
  cases hstep with
  | @call fs fs₁ tasks t rest task task₁ sys e htask hhash hfit hsys hexec =>
    obtain ⟨hh, hcall, -⟩ := hi.call htask hhash hfit hsys hexec
    obtain ⟨hfresh, hnl⟩ := hi.phase.2 t List.mem_cons_self task htask
    have hok := callOk_of_hashed hfresh hnl hh hfit e
    cases hcall with
    | @skipped content r hread hr =>
      obtain ⟨c₀, hc₀, hw, hout⟩ := hi.tree.hit hh.stores (isHash_keyAt fs₁ task) hread hr
      obtain ⟨hcmd, hperm⟩ := eq_of_keyAt_eq hcf (hi.tree.calls c₀ hc₀) hok
        (hdata c₀ (List.mem_append_left _ hc₀)) (hdata _ hmem) hw.hash
      refine ⟨c₀, hc₀, hw.status, hcmd, hperm, fun out hout₁ hout₂ hwr => ?_⟩
      have hstore : StoreInv S fs₁ := hh.inv S (hi.tree.store.mono hsub) fun p hp d hd =>
        hdata _ hmem (.inl ⟨p, hp, hd⟩)
      rw [← hcmd]
      dsimp only
      rw [hi.tree.restoreAll hh hfit.1 hread hr]
      exact hw.restored hcf (hdata c₀ (List.mem_append_left _ hc₀)) hstore hout hout₁ hout₂ hwr
    | commandFailed => cases hskip
    | recordFailed => cases hskip
    | success => cases hskip

/-! ## 3. Two inputs that are exchanged -/

def catManifest (outputs : Bytes) : Bytes :=
  ascii "task t \x7b\n  cmd = cat i j | tee o p\n  inputs = i, j\n  outputs = " ++ outputs ++
    ascii "\n\x7d\n"

def catTask (outputs : List Bytes) : Task :=
  { taskNew (ascii "t") with
    cmd := some (ascii "cat i j | tee o p"), inputs := [ascii "i", ascii "j"], outputs := outputs }

theorem parseManifest_cat :
    parseManifest (catManifest (ascii "o")) = [catTask [ascii "o"]] ∧
      parseManifest (catManifest (ascii "o, p")) = [catTask [ascii "o", ascii "p"]] := by
  rw [catManifest, catManifest, Bytes.ascii_ofList, Bytes.ascii_ofList]
  decide +kernel

/-- The two inputs one after the other, for each output. -/
def catCommand : Command := fun _ m _ => (m (ascii "i")).getD [] ++ (m (ascii "j")).getD []

def catSystem : System := fun _ fs =>
  match fs.read (ascii "i"), fs.read (ascii "j") with
  | some x, some y =>
    if fs.Writable (ascii "o") ∧ fs.Writable (ascii "p") then
      (0, (fs.set (resolve fs.cwd (ascii "o")) (some (.file (x ++ y)))).set
        (resolve fs.cwd (ascii "p")) (some (.file (x ++ y))))
    else (1, fs)
  | _, _ => (1, fs)

theorem EditOutside.trans {fs₁ fs₂ fs₃ : FS} (h : EditOutside fs₁ fs₂) (h' : EditOutside fs₂ fs₃) :
    EditOutside fs₁ fs₃ where
  cwd := h'.cwd.trans h.cwd
  dir := by
    have := h'.dir
    rw [h.cwd] at this
    rw [this, h.dir]
  inside q := by
    have := h'.inside q
    rw [h.cwd] at this
    rw [this, h.inside]

theorem editOutside_set {p : Path} (hp : ¬ Inside fs.cwd p) (hne : p ≠ fs.cwd) (n : Option Node) :
    EditOutside fs (fs.set p n) where
  cwd := rfl
  dir := FS.set_node_ne _ _ hne.symm
  inside _ := FS.set_node_ne _ _ fun he => hp (he ▸ List.prefix_append ..)

/-- An entry of the working directory. -/
theorem editOutside_set_name (hcwd : fs.cwd = [ascii "w"]) {name : Bytes}
    (hname : name ≠ ascii ".reprovm") (n : Option Node) :
    EditOutside fs (fs.set [ascii "w", name] n) := by
  refine editOutside_set ?_ ?_ n <;> rw [hcwd]
  · rw [Inside, reprovmDir, List.singleton_append]
    simpa using hname.symm
  · simp

/-- The program and the function agree. -/
theorem cat_computes (hcwd : fs.cwd = [ascii "w"]) {outputs : List Bytes}
    (ho : ∀ out ∈ outputs, out = ascii "o" ∨ out = ascii "p") :
    Computes catCommand catSystem (catTask outputs) fs := by
  have hsystem : system catSystem (catTask outputs).cmd fs = catSystem (ascii "cat i j | tee o p") fs := rfl
  have hi : inputMap fs (catTask outputs) (ascii "i") = fs.read (ascii "i") :=
    if_pos List.mem_cons_self
  have hj : inputMap fs (catTask outputs) (ascii "j") = fs.read (ascii "j") :=
    if_pos (List.mem_cons_of_mem _ List.mem_cons_self)
  have hro : resolve fs.cwd (ascii "o") = [ascii "w", ascii "o"] := by rw [hcwd]; rfl
  have hrp : resolve fs.cwd (ascii "p") = [ascii "w", ascii "p"] := by rw [hcwd]; rfl
  have hedit : ∀ d : Bytes, EditOutside fs ((fs.set [ascii "w", ascii "o"] (some (.file d))).set
      [ascii "w", ascii "p"] (some (.file d))) := fun d =>
    (editOutside_set_name hcwd (by decide) _).trans
      (editOutside_set_name ((FS.set_cwd ..).trans hcwd) (by decide) _)
  have hrefl : EditOutside fs fs := ⟨rfl, rfl, fun _ => rfl⟩
  refine ⟨?_, fun hret out hout => ?_⟩
  · rw [hsystem, catSystem, hro, hrp]
    split
    · split
      · exact hedit _
      · exact hrefl
    · exact hrefl
  · rw [hsystem, catSystem, hro, hrp] at hret ⊢
    split at hret
    · rename_i x y hx hy
      split at hret
      · rename_i hw
        simp only [if_pos hw, catCommand, hi, hj, hx, hy, Option.getD_some]
        rcases ho out hout with rfl | rfl
        · refine FS.read_of_node (by decide) ?_
          rw [(hedit _).cwd, hro, FS.set_node_ne _ _ (by decide), FS.set_node_self]
        · refine FS.read_of_node (by decide) ?_
          rw [(hedit _).cwd, hrp, FS.set_node_self]
      · cases hret
    · cases hret

/-- The directory after `cas_init`, with the two inputs in it. -/
def catTree (fs : FS) (x y : Bytes) : FS :=
  (fs.set [ascii "w", ascii "i"] (some (.file x))).set [ascii "w", ascii "j"] (some (.file y))

/-- The inputs exchanged, and the outputs removed. -/
def swapTree (fs : FS) (x y : Bytes) : FS :=
  ((catTree fs x y).set [ascii "w", ascii "o"] none).set [ascii "w", ascii "p"] none

theorem catTree_edit (hcwd : fs.cwd = [ascii "w"]) (x y : Bytes) : EditOutside fs (catTree fs x y) :=
  (editOutside_set_name hcwd (by decide) _).trans
    (editOutside_set_name ((FS.set_cwd ..).trans hcwd) (by decide) _)

theorem swapTree_edit (hcwd : fs.cwd = [ascii "w"]) (x y : Bytes) :
    EditOutside fs (swapTree fs x y) := by
  have h1 := catTree_edit hcwd x y
  have h2 := editOutside_set_name (h1.cwd.trans hcwd) (show ascii "o" ≠ ascii ".reprovm" by decide)
    none
  exact (h1.trans h2).trans (editOutside_set_name (((h1.trans h2).cwd).trans hcwd) (by decide) none)

theorem catTree_read (hcwd : fs.cwd = [ascii "w"]) (x y : Bytes) :
    (catTree fs x y).read (ascii "i") = some x ∧ (catTree fs x y).read (ascii "j") = some y := by
  have hcwd' := (catTree_edit hcwd x y).cwd.trans hcwd
  constructor <;> refine FS.read_of_node (by decide) ?_ <;> rw [hcwd']
  · exact (FS.set_node_ne _ _ (by decide)).trans (FS.set_node_self ..)
  · exact FS.set_node_self ..

theorem swapTree_read (hcwd : fs.cwd = [ascii "w"]) (x y : Bytes) :
    (swapTree fs x y).read (ascii "i") = some x ∧ (swapTree fs x y).read (ascii "j") = some y ∧
      (swapTree fs x y).node [ascii "w", ascii "o"] = none ∧
      (swapTree fs x y).node [ascii "w", ascii "p"] = none := by
  obtain ⟨hx, hy⟩ := catTree_read hcwd x y
  have hcwd' := (catTree_edit hcwd x y).cwd.trans hcwd
  have hread : ∀ name : Bytes, resolve [ascii "w"] name ≠ [ascii "w", ascii "o"] →
      resolve [ascii "w"] name ≠ [ascii "w", ascii "p"] →
      (swapTree fs x y).read name = (catTree fs x y).read name := by
    intro name ho hp
    refine FS.read_congr rfl ?_
    rw [hcwd']
    exact (FS.set_node_ne _ _ hp).trans (FS.set_node_ne _ _ ho)
  refine ⟨?_, ?_, ?_, FS.set_node_self ..⟩
  · rw [hread _ (by decide) (by decide), hx]
  · rw [hread _ (by decide) (by decide), hy]
  · exact (FS.set_node_ne _ _ (by decide)).trans (FS.set_node_self ..)

/-- The text of the task, for the inputs as they are first. -/
def catText : Bytes := taskText (catTask []) [blobHash (ascii "x"), blobHash (ascii "y")]

theorem catText_length : catText.length < 4096 := by
  have hcmd : ((catTask []).cmd.getD []).length < 100 := by decide
  have hdeps : (depsText (catTask [])).length < 100 := by decide
  have hlen : catText.length = _ := taskText_length (by simp [catTask]) (by simp [isHash_blobHash])
  rw [hlen]
  simp only [List.length_cons, List.length_nil]
  omega

theorem catText_swap : taskText (catTask []) [blobHash (ascii "y"), blobHash (ascii "x")] = catText := by
  have h := sortStrings_eq_iff.mpr
    (List.Perm.swap (blobHash (ascii "x")) (blobHash (ascii "y")) [])
  rw [catText, taskText, taskText, h]

/-- All that is hashed in the two runs. -/
def catData : Set Bytes := {ascii "x", ascii "y", ascii "xy", catText}

theorem catData_collisionFree : CollisionFree catData := by
  have h : ([ascii "x", ascii "y", ascii "xy", catText].map sha256).Nodup := by
    rw [catText, blobHash_digest (by decide), blobHash_digest (by decide),
      map_sha256 (by decide +kernel)]
    decide +kernel
  intro a ha b hb hab
  simp only [catData, Set.mem_insert_iff, Set.mem_singleton_iff] at ha hb
  exact List.inj_on_of_nodup_map h (by simpa using ha) (by simpa using hb) hab

/-- The task is hashed. -/
theorem cat_hashed (hi : StoreOk fs) {x y : Bytes} (hx : fs.read (ascii "i") = some x)
    (hy : fs.read (ascii "j") = some y)
    (htext : taskText (catTask []) [blobHash x, blobHash y] = catText) (outputs : List Bytes) :
    ∃ fs₁, ensureTaskHash fs (catTask outputs) = .ok (true, hashedTask fs₁ (catTask outputs), fs₁) ∧
      HashedIn fs (catTask outputs) fs₁ ∧ textAt fs₁ (catTask outputs) = catText ∧
      fs₁.read (ascii "i") = some x ∧ fs₁.read (ascii "j") = some y := by
  have hinputs : (catTask outputs).inputs = [ascii "i", ascii "j"] := rfl
  have hread : ∀ p ∈ (catTask outputs).inputs, fs.read p ≠ none := by
    intro p hp
    simp only [hinputs, List.mem_cons, List.not_mem_nil, or_false] at hp
    rcases hp with rfl | rfl
    · simp [hx]
    · simp [hy]
  obtain ⟨hs, fs₁, hrun⟩ := storeInputs_total hi hread
  have hstores := (storeInputs_stores hi (catTask outputs).inputs).1
  rw [hrun] at hstores
  have hx₁ : fs₁.read (ascii "i") = some x := hstores.read hx
  have hy₁ : fs₁.read (ascii "j") = some y := hstores.read hy
  have htext₁ : textAt fs₁ (catTask outputs) = catText := by
    rw [← htext, textAt, hinputs, List.map_cons, List.map_singleton, hashAt, hashAt, hx₁, hy₁]
    rfl
  have hens := ensureTaskHash_stored hi rfl hrun (by rw [htext₁]; exact catText_length)
  obtain ⟨-, hh, -⟩ | ⟨h, -⟩ := ensureTaskHash_cases hi rfl hens
  · exact ⟨fs₁, hens, hh, htext₁, hx₁, hy₁⟩
  · cases h

theorem KeepsRecords.read_metaPath (h : KeepsRecords fs fs') {key : Bytes} (hk : IsHash key) :
    fs'.read (metaPath key) = fs.read (metaPath key) := by
  rw [ReproVM.read_metaPath hk, ReproVM.read_metaPath hk, h.cwd, h.record]

/-- The first run executes the task. -/
theorem cat_first (hi : TreeInv F tr fs) (hnone : ∀ c, .call c ∉ tr) (hcwd : fs.cwd = [ascii "w"])
    (hx : fs.read (ascii "i") = some (ascii "x")) (hy : fs.read (ascii "j") = some (ascii "y"))
    (ho : fs.node [ascii "w", ascii "o"] = none) (hp : fs.node [ascii "w", ascii "p"] = none) :
    ∃ fs₁ e content r,
      ensureTaskHash fs (catTask [ascii "o"]) = .ok (true, hashedTask fs₁ (catTask [ascii "o"]), fs₁) ∧
      executeTask catSystem fs₁ (hashedTask fs₁ (catTask [ascii "o"])) = .ok e ∧
      fs₁.cwd = [ascii "w"] ∧ textAt fs₁ (catTask [ascii "o"]) = catText ∧
      fs₁.read (ascii "i") = some (ascii "x") ∧ fs₁.read (ascii "j") = some (ascii "y") ∧
      e.ok = true ∧ e.task.status = .success ∧ e.fs.cwd = [ascii "w"] ∧
      e.fs.read (ascii "o") = some (ascii "xy") ∧
      e.fs.read (metaPath (blobHash catText)) = some content ∧ readRecord content = .ok r := by
  obtain ⟨fs₁, hens, hh, htext, hx₁, hy₁⟩ := cat_hashed hi.store.ok hx hy rfl [ascii "o"]
  have hcwd₁ : fs₁.cwd = [ascii "w"] := hh.stores.cwd.trans hcwd
  have hkey : keyAt fs₁ (catTask [ascii "o"]) = blobHash catText := congrArg blobHash htext
  have hk := isHash_blobHash catText
  have houtside : ∀ name : Bytes, name ≠ ascii ".reprovm" → ¬ Inside fs.cwd [ascii "w", name] := by
    intro name hne
    rw [hcwd, Inside, reprovmDir, List.singleton_append]
    simpa using hne.symm
  have hwritable : ∀ name : Bytes, name ≠ ascii ".reprovm" → namesDir name = false →
      resolve [ascii "w"] name = [ascii "w", name] → fs.node [ascii "w", name] = none →
      fs₁.Writable name := by
    intro name hne hname hplace hn
    refine ⟨hname, ?_, ?_⟩ <;> rw [hcwd₁, hplace]
    · rw [hh.stores.outside (houtside name hne), hn]
      simp
    · have hdir := hh.ok.cwd
      rwa [hcwd₁] at hdir
  have hwo := hwritable (ascii "o") (by decide) (by decide) (by decide) ho
  have hwp := hwritable (ascii "p") (by decide) (by decide) (by decide) hp
  have hmiss : fs₁.node (recordPath fs₁.cwd (blobHash catText)) = none := by
    rw [hh.stores.node_record]
    by_contra hn
    obtain ⟨c, hc, -⟩ := hi.records _ hk hn
    exact hnone c hc
  obtain ⟨ret, fs₂, hrun⟩ : ∃ ret fs₂,
      system catSystem (catTask [ascii "o"]).cmd fs₁ = (ret, fs₂) := ⟨_, _, rfl⟩
  have hcomp : Computes catCommand catSystem (catTask [ascii "o"]) fs₁ :=
    cat_computes hcwd₁ fun out hout => .inl (List.mem_singleton.mp hout)
  have hret : ret = 0 := by
    have : system catSystem (catTask [ascii "o"]).cmd fs₁ = catSystem (ascii "cat i j | tee o p") fs₁ := rfl
    rw [this, catSystem, hx₁, hy₁] at hrun
    simp only [hwo, hwp, and_self, if_true] at hrun
    exact (Prod.mk.inj hrun).1.symm
  subst hret
  have hedit := hcomp.edits
  have hval := hcomp.outputs
  rw [hrun] at hedit hval
  have hval := hval rfl (ascii "o") (List.mem_singleton_self _)
  have hxy : catCommand ((catTask [ascii "o"]).cmd.getD []) (inputMap fs₁ (catTask [ascii "o"]))
      (ascii "o") = ascii "xy" := by
    have h1 : inputMap fs₁ (catTask [ascii "o"]) (ascii "i") = some (ascii "x") := hx₁
    have h2 : inputMap fs₁ (catTask [ascii "o"]) (ascii "j") = some (ascii "y") := hy₁
    rw [catCommand, h1, h2]
    decide
  rw [hxy] at hval
  have hi₂ : StoreOk fs₂ := hh.ok.edit hedit
  have hcwd₂ : fs₂.cwd = [ascii "w"] := hedit.cwd.trans hcwd₁
  have ho₂ : OutsideAll fs₂.cwd (catTask [ascii "o"]).outputs := by
    intro out hout
    rw [List.mem_singleton.mp hout, hcwd₂]
    exact not_inside_o _
  have hmiss₂ : fs₂.node (recordPath fs₂.cwd (blobHash catText)) = none := by
    rw [hedit.cwd, hedit.keepsRecords.record, hmiss]
  have hlen : (resultText fs₂ (catTask [ascii "o"])).length < 4096 := by
    have hres : resultText fs₂ (catTask [ascii "o"]) = hashAt fs₂ (ascii "o") := rfl
    rw [hres, hashAt, hval, Option.map_some, Option.getD_some, (isHash_blobHash _).length]
    decide
  have hkeep := hh.stores.keepsRecords.trans hedit.keepsRecords
  have hwr : fs₂.Writable (metaPath (blobHash catText)) := by
    refine writable_metaPath hk ?_ (by rw [hmiss₂]; simp)
    rw [hkeep.cwd]
    exact hkeep.keep _ _ (inside_cacheDir fs.cwd) hi.cache
  have hmain := mainTask_success hens ((read_metaPath_eq_none (hkey ▸ hk) fs₁).mpr (hkey ▸ hmiss)) hrun
    hi₂ ho₂ hlen (hkey ▸ hwr)
  rw [mainTask_hashed hens, hkey] at hmain
  have hplain : ∀ out ∈ (catTask [ascii "o"]).outputs, PlainName out := by
    intro out hout
    rw [List.mem_singleton.mp hout]
    exact ⟨by decide, by decide, by decide, by decide⟩
  exact ⟨fs₁, _, _, _, hens, hmain, hcwd₁, htext, hx₁, hy₁, rfl, rfl,
    (recorded_grows hi₂ ho₂ hmiss₂ ∅).cwd.trans hcwd₂,
    (read_recorded_output hi₂ ho₂ hmiss₂ (ascii "o") (List.mem_singleton_self _)).trans hval,
    read_recorded hi₂ ho₂ hk, readRecord_recordOf hplain (by decide) hk fs₂⟩

theorem cat_fit (fs : FS) {outputs : List Bytes}
    (ho : ∀ out ∈ outputs, out = ascii "o" ∨ out = ascii "p") :
    OutputsFit fs.cwd (catTask outputs) := by
  refine ⟨fun out hout => ?_, fun out hout => ?_⟩ <;> rcases ho out hout with rfl | rfl
  · exact not_inside_o _
  · have hplace : resolve fs.cwd (ascii "p") = fs.cwd ++ [ascii "p"] := rfl
    rw [hplace, Inside, reprovmDir, List.prefix_append_right_inj]
    decide
  · decide
  · decide

theorem cat_data {outputs : List Bytes} {e : Exec} {x y : Bytes} (hxy : x ∈ catData ∧ y ∈ catData)
    (hx : fs₁.read (ascii "i") = some x) (hy : fs₁.read (ascii "j") = some y)
    (htext : textAt fs₁ (catTask outputs) = catText)
    (hout : e.ran = true → ∀ out ∈ outputs, e.fs.read out = some (ascii "xy")) :
    Call.data ⟨catTask outputs, fs₁, e⟩ ⊆ catData := by
  rintro d (⟨p, hp, hd⟩ | rfl | ⟨hran, out, hmem, hd⟩)
  · replace hp : p ∈ [ascii "i", ascii "j"] := hp
    simp only [List.mem_cons, List.not_mem_nil, or_false] at hp
    rcases hp with rfl | rfl
    · obtain rfl := Option.some.inj (hx.symm.trans hd)
      exact hxy.1
    · obtain rfl := Option.some.inj (hy.symm.trans hd)
      exact hxy.2
  · rw [htext]
    simp [catData]
  · obtain rfl := Option.some.inj ((hout hran out hmem).symm.trans hd)
    simp [catData]

/-- The second run finds the record of the first. -/
theorem cat_second {c₁ : Call} (hi : TreeInv catCommand tr fs) (honly : ∀ c, .call c ∈ tr → c = c₁)
    (htask : c₁.task = catTask [ascii "o"]) (hx₁ : c₁.fs.read (ascii "i") = some (ascii "x"))
    (hy₁ : c₁.fs.read (ascii "j") = some (ascii "y")) (hinv : involved tr ⊆ catData)
    (hcwd : fs.cwd = [ascii "w"]) (hx : fs.read (ascii "i") = some (ascii "y"))
    (hy : fs.read (ascii "j") = some (ascii "x")) (ho : fs.node [ascii "w", ascii "o"] = none)
    (hp : fs.node [ascii "w", ascii "p"] = none) {content : Bytes} {r : Record}
    (hrec : fs.read (metaPath (blobHash catText)) = some content) (hr : readRecord content = .ok r) :
    ∃ fs₁ e, ensureTaskHash fs (catTask [ascii "o", ascii "p"])
        = .ok (true, hashedTask fs₁ (catTask [ascii "o", ascii "p"]), fs₁) ∧
      executeTask catSystem fs₁ (hashedTask fs₁ (catTask [ascii "o", ascii "p"])) = .ok e ∧
      fs₁.cwd = [ascii "w"] ∧ textAt fs₁ (catTask [ascii "o", ascii "p"]) = catText ∧
      fs₁.read (ascii "i") = some (ascii "y") ∧ fs₁.read (ascii "j") = some (ascii "x") ∧
      e.ran = false ∧ e.task.status = .skipped ∧ e.fs.read (ascii "o") = some (ascii "xy") ∧
      e.fs.read (ascii "p") = none := by
  obtain ⟨fs₁, hens, hh, htext, hx', hy'⟩ := cat_hashed hi.store.ok hx hy catText_swap
    [ascii "o", ascii "p"]
  have hcwd₁ : fs₁.cwd = [ascii "w"] := hh.stores.cwd.trans hcwd
  have htwo : ∀ out ∈ [ascii "o", ascii "p"], out = ascii "o" ∨ out = ascii "p" := by simp
  have hfit := cat_fit fs₁ htwo
  have hkey : keyAt fs₁ (catTask [ascii "o", ascii "p"]) = blobHash catText :=
    congrArg blobHash htext
  have hread : fs₁.read (metaPath (keyAt fs₁ (catTask [ascii "o", ascii "p"]))) = some content := by
    rw [hkey, hh.stores.keepsRecords.read_metaPath (isHash_blobHash catText), hrec]
  obtain ⟨c, hc, hw, hout⟩ := hi.hit hh.stores (isHash_keyAt fs₁ _) hread hr
  obtain rfl := honly c hc
  have houtputs : c.task.outputs = [ascii "o"] := by rw [htask]; rfl
  have hrestore := hi.restoreAll hh hfit.1 hread hr
  have hnode : ∀ name : Bytes, fs.node [ascii "w", name] = none → name ≠ ascii ".reprovm" →
      fs₁.node [ascii "w", name] = none := by
    intro name hn hne
    rw [hh.stores.outside, hn]
    rw [hcwd, Inside, reprovmDir, List.singleton_append]
    simpa using hne.symm
  refine ⟨fs₁, _, hens, executeTask_hit hread hr, hcwd₁, htext, hx', hy', rfl, rfl, ?_, ?_⟩
  · have hwr : fs₁.Writable (ascii "o") := by
      refine ⟨by decide, ?_, ?_⟩ <;> rw [resolve_o, hcwd₁]
      · rw [List.singleton_append, hnode _ ho (by decide)]
        simp
      · have hdir := hh.ok.cwd
        rwa [hcwd₁] at hdir
    have hval : catCommand c.cmd c.inputs (ascii "o") = ascii "xy" := by
      have h1 : inputMap c.fs c.task (ascii "i") = some (ascii "x") := by
        rw [htask]
        exact hx₁
      have h2 : inputMap c.fs c.task (ascii "j") = some (ascii "y") := by
        rw [htask]
        exact hy₁
      rw [Call.inputs, catCommand, h1, h2]
      decide
    have hstore : StoreInv catData fs₁ := hh.inv _ (hi.store.mono hinv) fun p hp d hd => by
      replace hp : p ∈ [ascii "i", ascii "j"] := hp
      simp only [List.mem_cons, List.not_mem_nil, or_false] at hp
      rcases hp with rfl | rfl
      · obtain rfl := Option.some.inj (hx'.symm.trans hd)
        simp [catData]
      · obtain rfl := Option.some.inj (hy'.symm.trans hd)
        simp [catData]
    have hdata : c.data ⊆ catData := (data_subset_involved (e := .call c) hc).trans hinv
    rw [hrestore, ← hval]
    exact hw.restored catData_collisionFree hdata hstore hout List.mem_cons_self
      (by rw [houtputs]; exact List.mem_cons_self) hwr
  · have hplace : resolve [ascii "w"] (ascii "p") = [ascii "w", ascii "p"] := by decide
    have hnone : lastWrite [ascii "w", ascii "p"]
        (restoreWrites fs₁ (catTask [ascii "o", ascii "p"]).outputs r.outputs) = none := by
      by_contra hne
      obtain ⟨d, hd⟩ := Option.ne_none_iff_exists'.mp hne
      obtain ⟨entry, he, -, -, hpx⟩ := mem_restoreWrites.mp (lastWrite_mem hd)
      rw [hout, houtputs] at he
      obtain ⟨out, hmem, hsome⟩ := List.mem_filterMap.mp he
      obtain ⟨d', -, rfl⟩ := Option.map_eq_some_iff.mp hsome
      rw [List.mem_singleton.mp hmem, resolve_o, hcwd₁] at hpx
      exact absurd (Prod.mk.inj hpx).1 (by decide)
    have hlook : (fs₁.setFiles (restoreWrites fs₁ (catTask [ascii "o", ascii "p"]).outputs
        r.outputs)).node [ascii "w", ascii "p"] = none := by
      rw [FS.setFiles_node, hnone, hnode _ hp (by decide)]
      rfl
    rw [hrestore, FS.read, FS.lookup, if_neg (by decide), FS.setFiles_cwd, hcwd₁, hplace, hlook]

/-- The two runs, with the inputs exchanged between them. -/
theorem cat_history : ∃ (before : List Event) (c : Call) (s : Session),
    Run (SessionStep catCommand) ⟨(casInit workDir (ascii ".")).2, .idle⟩
      (before ++ [Event.call c]) s ∧
      CollisionFree (involved (before ++ [Event.call c])) ∧ c.status = .skipped ∧
      c.task = catTask [ascii "o", ascii "p"] ∧ (∀ out, catCommand c.cmd c.inputs out = ascii "yx") ∧
      c.exec.fs.read (ascii "o") = some (ascii "xy") ∧ c.exec.fs.read (ascii "p") = none := by
  obtain ⟨hman₁, hman₂⟩ := parseManifest_cat
  have hplan₁ : plan (fun _ => false) 2 (catManifest (ascii "o")) [] = .ok (.sorted [0]) := by
    rw [plan, hman₁]
    decide +kernel
  have hplan₂ : plan (fun _ => false) 2 (catManifest (ascii "o, p")) [] = .ok (.sorted [0]) := by
    rw [plan, hman₂]
    decide +kernel
  have hone : ∀ out ∈ [ascii "o"], out = ascii "o" ∨ out = ascii "p" := fun out hout =>
    .inl (List.mem_singleton.mp hout)
  have htwo : ∀ out ∈ [ascii "o", ascii "p"], out = ascii "o" ∨ out = ascii "p" := by simp
  have hcwd₀ : (casInit workDir (ascii ".")).2.cwd = [ascii "w"] := by
    rw [workDir_noStore.init_eq]
    rfl
  -- the first run
  have hT := catTree_edit hcwd₀ (ascii "x") (ascii "y")
  have hcwdT := hT.cwd.trans hcwd₀
  obtain ⟨hTx, hTy⟩ := catTree_read hcwd₀ (ascii "x") (ascii "y")
  have hTn : ∀ name : Bytes, name = ascii "o" ∨ name = ascii "p" →
      (catTree (casInit workDir (ascii ".")).2 (ascii "x") (ascii "y")).node [ascii "w", name]
        = none := by
    rintro name (rfl | rfl) <;>
      rw [catTree, FS.set_node_ne _ _ (by decide), FS.set_node_ne _ _ (by decide),
        workDir_noStore.init_eq] <;> decide
  generalize catTree (casInit workDir (ascii ".")).2 (ascii "x") (ascii "y") = T at *
  have hrun₁ := Run.single (SessionStep.edit (F := catCommand) hT)
  have hi₁ := (sessionInv workDir_noStore hrun₁).tree
  have hrun₂ := hrun₁.snoc (.start hplan₁)
  rw [casInit_again hi₁.store hi₁.cache, hman₁] at hrun₂
  obtain ⟨fs₁, e, content, r, hens, hexec, hcwd₁, htext, hx₁, hy₁, hok, -, hcwdE, hoE, hrecE, hr⟩ :=
    cat_first (sessionInv workDir_noStore hrun₂).tree (by simp) hcwdT hTx hTy (hTn _ (.inl rfl))
      (hTn _ (.inr rfl))
  have hcall : SessionStep catCommand ⟨T, .loop [catTask [ascii "o"]] [0]⟩
      (.call ⟨catTask [ascii "o"], fs₁, e⟩) _ :=
    .call rfl hens (cat_fit fs₁ hone) (cat_computes hcwd₁ hone) hexec
  rw [if_pos hok] at hcall
  have hrun₃ := (hrun₂.snoc hcall).snoc (.finish ..)
  -- the edit, and the second run
  have hU := swapTree_edit hcwdE (ascii "y") (ascii "x")
  have hcwdU := hU.cwd.trans hcwdE
  obtain ⟨hUx, hUy, hUo, hUp⟩ := swapTree_read hcwdE (ascii "y") (ascii "x")
  have hrecU := (hU.keepsRecords.read_metaPath (isHash_blobHash catText)).trans hrecE
  generalize swapTree e.fs (ascii "y") (ascii "x") = U at *
  have hrun₄ := hrun₃.snoc (.edit hU)
  have hi₄ := (sessionInv workDir_noStore hrun₄).tree
  have hrun₅ := hrun₄.snoc (.start hplan₂)
  rw [casInit_again hi₄.store hi₄.cache, hman₂] at hrun₅
  have hdata₁ : Call.data ⟨catTask [ascii "o"], fs₁, e⟩ ⊆ catData :=
    cat_data (by simp [catData]) hx₁ hy₁ htext fun _ out hout => by
      rw [List.mem_singleton.mp hout, hoE]
  have hinv : ∀ c : Call, c.data ⊆ catData →
      involved ([Event.other, .other, .call ⟨catTask [ascii "o"], fs₁, e⟩, .other, .other,
        .other] ++ [Event.call c]) ⊆ catData := by
    refine fun c hc => involved_subset fun ev hev => ?_
    simp only [List.cons_append, List.nil_append, List.mem_cons, List.not_mem_nil, or_false] at hev
    rcases hev with rfl | rfl | rfl | rfl | rfl | rfl | rfl
    · exact Set.empty_subset _
    · exact Set.empty_subset _
    · exact hdata₁
    · exact Set.empty_subset _
    · exact Set.empty_subset _
    · exact Set.empty_subset _
    · exact hc
  have hbefore : involved [.other, .other, .call ⟨catTask [ascii "o"], fs₁, e⟩, .other, .other,
      .other] ⊆ catData :=
    (involved_mono (List.subset_append_left ..)).trans (hinv _ hdata₁)
  have honly : ∀ c, Event.call c ∈ [Event.other, .other, .call ⟨catTask [ascii "o"], fs₁, e⟩, .other,
      .other, .other] → c = ⟨catTask [ascii "o"], fs₁, e⟩ := by simp
  obtain ⟨fs₂, e₂, hens₂, hexec₂, hcwd₂, htext₂, hx₂, hy₂, hran, hskip, ho, hp⟩ :=
    cat_second (sessionInv workDir_noStore hrun₅).tree honly rfl hx₁ hy₁ hbefore hcwdU hUx hUy hUo
      hUp hrecU hr
  have hrun₆ := hrun₅.snoc (.call rfl hens₂ (cat_fit fs₂ htwo) (cat_computes hcwd₂ htwo) hexec₂)
  have hdata₂ : Call.data ⟨catTask [ascii "o", ascii "p"], fs₂, e₂⟩ ⊆ catData :=
    cat_data (by simp [catData]) hx₂ hy₂ htext₂ fun h => by
      rw [hran] at h
      cases h
  refine ⟨_, _, _, hrun₆, catData_collisionFree.mono (hinv _ hdata₂), hskip, rfl, fun out => ?_,
    ho, hp⟩
  have h1 : inputMap fs₂ (catTask [ascii "o", ascii "p"]) (ascii "i") = some (ascii "y") := hx₂
  have h2 : inputMap fs₂ (catTask [ascii "o", ascii "p"]) (ascii "j") = some (ascii "x") := hy₂
  rw [Call.inputs, catCommand, h1, h2]
  decide

/-- **Stale and missing outputs.**  The task is skipped, its first output holds what the command
gave before the edit, and the other is not there. -/
theorem swapped_inputs_skipped : ∃ (before : List Event) (c : Call) (s : Session),
    Run (SessionStep catCommand) ⟨(casInit workDir (ascii ".")).2, .idle⟩ (before ++ [.call c]) s ∧
      CollisionFree (involved (before ++ [.call c])) ∧ c.status = .skipped ∧
      c.task.outputs = [ascii "o", ascii "p"] ∧
      (∀ out, catCommand c.cmd c.inputs out = ascii "yx") ∧
      c.exec.fs.read (ascii "o") = some (ascii "xy") ∧ c.exec.fs.read (ascii "p") = none := by
  obtain ⟨before, c, s, hrun, hcf, hskip, htask, hval, ho, hp⟩ := cat_history
  refine ⟨before, c, s, hrun, hcf, hskip, ?_, hval, ho, hp⟩
  rw [htask]
  rfl

theorem skipped_outputs_cat : ∃ (before : List Event) (c c₀ : Call), c.status = .skipped ∧
    .call c₀ ∈ before ∧ c₀.status = .success ∧ c₀.cmd = c.cmd ∧ c₀.contents.Perm c.contents ∧
    ∀ out ∈ c.task.outputs, out ∈ c₀.task.outputs → c.fs.Writable out →
      c.exec.fs.read out = some (catCommand c.cmd c₀.inputs out) := by
  obtain ⟨before, c, s, hrun, hcf, hskip, -⟩ := cat_history
  obtain ⟨c₀, h⟩ := skipped_outputs workDir_noStore hrun hcf rfl hskip
  exact ⟨before, c, c₀, hskip, h⟩

end ReproVM
