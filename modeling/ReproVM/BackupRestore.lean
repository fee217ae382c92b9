/-
# Backups and what they give back

`backup_create_full` and `backup_restore` leave the copying to `cp -r`, run by a shell: the trees
below `.reprovm/cas` and `.reprovm/cache` go into a directory of the backup, and from there below
`.reprovm` of a place to restore to.  What `cp` does is taken from its documentation (`CpRecursive`);
what the two functions add is the paths, and that they stop when a command fails.

A backup that was made and is left alone gives back every file of the store and of the cache as it
was, whatever has happened to the originals, and leaves alone what the backup does not have
(`backup_roundtrip`).
-/
import ReproVM.Backup
import ReproVM.CasRuns
import ReproVM.TaskSteps

namespace ReproVM

open Bytes (ascii decimal pieces)

/-! ## 1. The code -/

def backupPath (backupDir backupName : Bytes) : Bytes :=
  snprintf 1024 (backupDir ++ ascii "/" ++ backupName)

/-- `metadata.txt` of a backup. -/
def metadataText (backupName : Bytes) (now : Nat) : Bytes :=
  ascii "type=full\ncreated=" ++ decimal now ++ ascii "\nname=" ++ backupName ++ ascii "\n"

/-- `now` is what `time(NULL)` gives. -/
def backupCreateFull (sys : System) (backupDir backupName : Bytes) (now : Nat) (fs : FS) : Int × FS :=
  let backupPath := backupPath backupDir backupName
  let fs := match fs.mkdir backupPath with
    | .made fs' => fs'
    | _ => fs
  let (ret, fs) := sys (snprintf 2048 (ascii "cp -r .reprovm/cas " ++ backupPath ++ ascii "/")) fs
  if ret ≠ 0 then (-1, fs)
  else
    let (ret, fs) := sys (snprintf 2048 (ascii "cp -r .reprovm/cache " ++ backupPath ++ ascii "/")) fs
    if ret ≠ 0 then (-1, fs)
    else
      let metadataPath := snprintf 1024 (backupPath ++ ascii "/metadata.txt")
      match fs.openWrite metadataPath with
      | none => (0, fs)
      | some fs' => (0, fs'.write (resolve fs.cwd metadataPath) (metadataText backupName now))

/-- There is no delta: the base is not looked at. -/
def backupCreateIncremental (sys : System) (backupDir _baseBackup backupName : Bytes) (now : Nat)
    (fs : FS) : Int × FS :=
  backupCreateFull sys backupDir backupName now fs

def backupRestore (sys : System) (backupDir backupName restorePath : Bytes) (fs : FS) : Int × FS :=
  let backupPath := backupPath backupDir backupName
  let (ret, fs) := sys (snprintf 2048
    (ascii "cp -r " ++ backupPath ++ ascii "/cas " ++ restorePath ++ ascii "/.reprovm/")) fs
  if ret ≠ 0 then (-1, fs)
  else
    let (ret, fs) := sys (snprintf 2048
      (ascii "cp -r " ++ backupPath ++ ascii "/cache " ++ restorePath ++ ascii "/.reprovm/")) fs
    if ret ≠ 0 then (-1, fs) else (0, fs)

def backupVerify (backupDir backupName : Bytes) (fs : FS) : Int :=
  let backupPath := backupPath backupDir backupName
  if fs.lookup backupPath = none then -1
  else if fs.lookup (snprintf 1024 (backupPath ++ ascii "/cas")) = none then -1
  else 0

/-! ## 2. What `cp -r` does -/

/-- The program in another working directory. -/
def FS.chdir (fs : FS) (p : Path) : FS := { fs with cwd := p }

@[simp] theorem FS.chdir_cwd (fs : FS) (p : Path) : (fs.chdir p).cwd = p := rfl

@[simp] theorem FS.chdir_node (fs : FS) (p : Path) : (fs.chdir p).node = fs.node := rfl

/-- Neither place is below the other. -/
def Apart (p q : Path) : Prop := ¬ p <+: q ∧ ¬ q <+: p

/-- The tree at `src` is copied over what is at `dst`. -/
structure CopiedOver (fs : FS) (src dst : Path) (fs' : FS) : Prop where
  cwd : fs'.cwd = fs.cwd
  outside : ∀ p, ¬ dst <+: p → fs'.node p = fs.node p
  below : ∀ r, fs'.node (dst ++ r) = (fs.node (src ++ r)).or (fs.node (dst ++ r))

/-- A word of a command line that a shell leaves as it is, and that is no option. -/
structure Word (s : Bytes) : Prop where
  notEmpty : s ≠ []
  noOption : s.head? ≠ some 45
  plain : ∀ c ∈ s, c ∈ ascii "abcdefghijklmnopqrstuvwxyzABCDEFGHIJKLMNOPQRSTUVWXYZ0123456789._-/"

/-- `cp -r src dst/` with a directory `dst` there: if it succeeds, what `src` refers to has been
copied over the place of its name in `dst`. -/
def CpRecursive (sys : System) : Prop :=
  ∀ (fs fs' : FS) (base c dst : Bytes), base ≠ [] → IsName c → Word (base ++ 47 :: c) → Word dst →
    sys (ascii "cp -r " ++ (base ++ 47 :: c) ++ ascii " " ++ dst ++ ascii "/") fs = (0, fs') →
    fs.node (resolve fs.cwd dst) = some .dir →
    CopiedOver fs (resolve fs.cwd base ++ [c]) (resolve fs.cwd dst ++ [c]) fs'

section Places

variable {p q r : Path} {a b : Bytes}

theorem Apart.append_ne (h : Apart p q) (r r' : Path) : p ++ r ≠ q ++ r' := by
  intro he
  rcases List.prefix_or_prefix_of_prefix (List.prefix_append p r) (he ▸ List.prefix_append q r') with
    hpq | hqp
  · exact h.1 hpq
  · exact h.2 hqp

theorem Apart.below_ne (h : Apart p q) (r : Path) : q ++ r ≠ p := by
  intro he
  exact h.append_ne [] r (by rw [he, List.append_nil])

theorem Apart.not_prefix (h : Apart p q) (r : Path) : ¬ p <+: q ++ r := by
  rintro ⟨r', he⟩
  exact h.append_ne r' r he

theorem Apart.symm (h : Apart p q) : Apart q p := ⟨h.2, h.1⟩

/-- Two names in one directory. -/
theorem not_prefix_name (h : a ≠ b) (r : Path) : ¬ p ++ [a] <+: p ++ b :: r := by
  rintro ⟨r', he⟩
  rw [List.append_assoc, List.append_cancel_left_eq] at he
  exact h (List.cons.inj he).1

theorem not_prefix_self (a : Bytes) (p : Path) : ¬ p ++ [a] <+: p := by
  intro h
  have hlen := h.length_le
  rw [List.length_append, List.length_singleton] at hlen
  omega

end Places

/-! ## 3. Making a backup -/

section Create

variable {sys : System} {backupDir backupName : Bytes} {now : Nat} {fs fs' : FS}

/-- The names of a backup fit the buffers and the shell. -/
structure BackupName (backupDir backupName : Bytes) : Prop where
  dir : backupDir ≠ []
  name : IsName backupName
  word : Word (backupDir ++ 47 :: backupName)
  short : backupDir.length + backupName.length < 1000

/-- Where a backup goes. -/
def backupPlace (cwd : Path) (backupDir backupName : Bytes) : Path :=
  resolve cwd (backupDir ++ 47 :: backupName)

/-- What a backup holds, at its place. -/
structure Saved (place : Path) (fs fs' : FS) : Prop where
  cwd : fs'.cwd = fs.cwd
  dir : fs'.node place = some .dir
  cas : ∀ r, fs'.node (place ++ ascii "cas" :: r) = fs.node (casDir fs.cwd ++ r)
  cache : ∀ r, fs'.node (place ++ ascii "cache" :: r) = fs.node (cacheDir fs.cwd ++ r)
  outside : ∀ p, ¬ place <+: p → fs'.node p = fs.node p

theorem snprintf_of_lt {n : Nat} {text : Bytes} (h : text.length < n) : snprintf n text = text :=
  List.take_of_length_le (Nat.le_sub_one_of_lt h)

theorem backupPath_eq (h : BackupName backupDir backupName) :
    backupPath backupDir backupName = backupDir ++ 47 :: backupName := by
  have hshort := h.short
  rw [backupPath, List.append_assoc]
  exact snprintf_of_lt (by rw [List.length_append, List.length_append]; change _ + (1 + _) < _; omega)

theorem isName_cas : IsName (ascii "cas") := ⟨by decide, by decide, by decide, by decide⟩

theorem isName_cache : IsName (ascii "cache") := ⟨by decide, by decide, by decide, by decide⟩

theorem isName_reprovm : IsName (ascii ".reprovm") := ⟨by decide, by decide, by decide, by decide⟩

theorem Word.append {s t : Bytes} (hs : Word s)
    (ht : ∀ c ∈ t, c ∈ ascii "abcdefghijklmnopqrstuvwxyzABCDEFGHIJKLMNOPQRSTUVWXYZ0123456789._-/") :
    Word (s ++ t) where
  notEmpty := List.append_ne_nil_of_left_ne_nil hs.notEmpty t
  noOption := by rw [List.head?_append_of_ne_nil _ hs.notEmpty]; exact hs.noOption
  plain c hc := (List.mem_append.mp hc).elim (hs.plain c) (ht c)

theorem Word.below {s c : Bytes} (hs : Word s)
    (hc : ∀ x ∈ c, x ∈ ascii "abcdefghijklmnopqrstuvwxyzABCDEFGHIJKLMNOPQRSTUVWXYZ0123456789._-/") :
    Word (s ++ 47 :: c) := by
  refine hs.append (List.forall_mem_cons.mpr ⟨?_, hc⟩)
  rw [Bytes.ascii_ofList]
  decide

theorem plain_cas : ∀ c ∈ ascii "cas",
    c ∈ ascii "abcdefghijklmnopqrstuvwxyzABCDEFGHIJKLMNOPQRSTUVWXYZ0123456789._-/" := by
  rw [Bytes.ascii_ofList, Bytes.ascii_ofList]
  decide

theorem plain_cache : ∀ c ∈ ascii "cache",
    c ∈ ascii "abcdefghijklmnopqrstuvwxyzABCDEFGHIJKLMNOPQRSTUVWXYZ0123456789._-/" := by
  rw [Bytes.ascii_ofList, Bytes.ascii_ofList]
  decide

theorem word_reprovm : Word (ascii ".reprovm") where
  notEmpty := by decide
  noOption := by decide
  plain := by
    rw [Bytes.ascii_ofList, Bytes.ascii_ofList]
    decide

theorem failed_ne {fs fs' : FS} : ((-1, fs) : Int × FS) ≠ (0, fs') := fun h => by
  have hret : (-1 : Int) = 0 := congrArg Prod.fst h
  exact absurd hret (by decide)

/-- The two copies of a backup, and the file written after them, which may fail. -/
theorem backupCreateFull_copies (h : backupCreateFull sys backupDir backupName now fs = (0, fs'))
    (hname : BackupName backupDir backupName) {fsDir : FS}
    (hmkdir : fs.mkdir (backupDir ++ 47 :: backupName) = .made fsDir) :
    ∃ fsCas fsCache, sys (ascii "cp -r .reprovm/cas " ++ (backupDir ++ 47 :: backupName) ++ ascii "/")
        fsDir = (0, fsCas) ∧
      sys (ascii "cp -r .reprovm/cache " ++ (backupDir ++ 47 :: backupName) ++ ascii "/") fsCas =
        (0, fsCache) ∧
      fs'.cwd = fsCache.cwd ∧
      ∀ p, p ≠ resolve fsCache.cwd (backupDir ++ 47 :: backupName ++ 47 :: ascii "metadata.txt") →
        fs'.node p = fsCache.node p := by
  have hshort := hname.short
  have htext : ∀ t : Bytes, t.length ≤ 30 →
      snprintf 2048 (t ++ (backupDir ++ 47 :: backupName) ++ ascii "/") =
        t ++ (backupDir ++ 47 :: backupName) ++ ascii "/" := by
    intro t ht
    refine snprintf_of_lt ?_
    rw [List.length_append, List.length_append, List.length_append, List.length_cons]
    change _ + _ + 1 < _
    omega
  have hmeta : snprintf 1024 (backupDir ++ 47 :: backupName ++ ascii "/metadata.txt") =
      backupDir ++ 47 :: backupName ++ 47 :: ascii "metadata.txt" := by
    refine (snprintf_of_lt ?_).trans (by rfl)
    rw [List.length_append, List.length_append, List.length_cons]
    change _ + 13 < _
    omega
  rw [backupCreateFull, backupPath_eq hname, hmkdir] at h
  dsimp only at h
  rw [htext _ (by decide), htext _ (by decide), hmeta] at h
  rcases hcas : sys (ascii "cp -r .reprovm/cas " ++ (backupDir ++ 47 :: backupName) ++ ascii "/") fsDir
    with ⟨ret, fsCas⟩
  rw [hcas] at h
  dsimp only at h
  split at h
  · exact absurd h failed_ne
  · rename_i hret
    obtain rfl := not_not.mp hret
    rcases hcache : sys (ascii "cp -r .reprovm/cache " ++ (backupDir ++ 47 :: backupName) ++ ascii "/")
      fsCas with ⟨ret, fsCache⟩
    rw [hcache] at h
    dsimp only at h
    split at h
    · exact absurd h failed_ne
    · rename_i hret
      obtain rfl := not_not.mp hret
      refine ⟨fsCas, fsCache, rfl, hcache, ?_⟩
      split at h
      · obtain rfl := (Prod.mk.inj h).2
        exact ⟨rfl, fun _ _ => rfl⟩
      · rename_i fsMeta hopen
        obtain rfl := (Prod.mk.inj h).2
        obtain ⟨-, hset⟩ := Option.ite_none_right_eq_some.mp ((FS.openWrite_eq ..).symm.trans hopen)
        obtain rfl := Option.some.inj hset
        rw [FS.write_file (FS.set_node_self ..), FS.set_set]
        exact ⟨rfl, fun p hp => FS.set_node_ne _ _ hp⟩

/-- **A backup that is made** holds the store and the cache, and nothing else has changed. -/
theorem backupCreateFull_saved (hcp : CpRecursive sys) (hname : BackupName backupDir backupName)
    (hparent : fs.node (backupPlace fs.cwd backupDir backupName).dropLast = some .dir)
    (hnew : ∀ r, fs.node (backupPlace fs.cwd backupDir backupName ++ r) = none)
    (hcas : Apart (backupPlace fs.cwd backupDir backupName) (casDir fs.cwd))
    (hcache : Apart (backupPlace fs.cwd backupDir backupName) (cacheDir fs.cwd))
    (h : backupCreateFull sys backupDir backupName now fs = (0, fs')) :
    Saved (backupPlace fs.cwd backupDir backupName) fs fs' := by
  generalize hplace : backupPlace fs.cwd backupDir backupName = place at hparent hnew hcas hcache ⊢
  have hres : resolve fs.cwd (backupDir ++ 47 :: backupName) = place := hplace
  have hmkdir : fs.mkdir (backupDir ++ 47 :: backupName) = .made (fs.set place (some .dir)) := by
    have hnone : fs.node place = none := by simpa using hnew []
    simp [FS.mkdir, hres, hnone, hparent]
  obtain ⟨fsCas, fsCache, hsysCas, hsysCache, hcwd, hkeep⟩ := backupCreateFull_copies h hname hmkdir
  have hplain : ∀ p, p ≠ place → (fs.set place (some .dir)).node p = fs.node p := fun p hp =>
    FS.set_node_ne _ _ hp
  have hbelow : ∀ a r, place ++ a :: r ≠ place := fun a r he => by simp at he
  -- the store
  have hone := hcp _ _ (ascii ".reprovm") (ascii "cas") _ (by decide) isName_cas
    (word_reprovm.below plain_cas) hname.word hsysCas (by rw [FS.set_cwd, hres, FS.set_node_self])
  rw [FS.set_cwd, hres] at hone
  change CopiedOver _ (casDir fs.cwd) _ _ at hone
  have hcwdCas : fsCas.cwd = fs.cwd := hone.cwd
  have hdirCas : fsCas.node place = some .dir := by
    rw [hone.outside _ (not_prefix_self _ _), FS.set_node_self]
  -- the cache
  have htwo := hcp _ _ (ascii ".reprovm") (ascii "cache") _ (by decide) isName_cache
    (word_reprovm.below plain_cache) hname.word hsysCache (by rw [hcwdCas, hres, hdirCas])
  rw [hcwdCas, hres] at htwo
  change CopiedOver _ (cacheDir fs.cwd) _ _ at htwo
  have hcwdCache : fsCache.cwd = fs.cwd := htwo.cwd.trans hcwdCas
  have hmeta : IsName (ascii "metadata.txt") :=
    ⟨by decide, by decide, by decide, by decide⟩
  rw [hcwdCache, resolve_name (by simp) hmeta, hres] at hkeep
  have hnotMeta : ∀ a r, a ≠ ascii "metadata.txt" → place ++ a :: r ≠ place ++ [ascii "metadata.txt"] :=
    fun a r ha he => ha (List.cons.inj (List.append_cancel_left he)).1
  refine ⟨hcwd.trans hcwdCache, ?_, fun r => ?_, fun r => ?_, fun p hp => ?_⟩
  · rw [hkeep _ fun he => by simp at he, htwo.outside _ (not_prefix_self _ _), hdirCas]
  · have hcopy := hone.below r
    rw [List.append_assoc, List.singleton_append] at hcopy
    rw [hkeep _ (hnotMeta _ r (by decide)), htwo.outside _ (not_prefix_name (by decide) r), hcopy,
      hplain _ (hbelow _ r), hnew, Option.or_none]
    exact hplain _ (hcas.below_ne r)
  · have hcopy := htwo.below r
    rw [List.append_assoc, List.singleton_append] at hcopy
    rw [hkeep _ (hnotMeta _ r (by decide)), hcopy, hone.outside _ (not_prefix_name (by decide) r),
      hplain _ (hbelow _ r), hnew, Option.or_none, hone.outside]
    · exact hplain _ (hcache.below_ne r)
    · intro hpre
      exact hcache.not_prefix r ((List.prefix_append ..).trans hpre)
  · have hne : ∀ a, p ≠ place ++ [a] := by
      rintro a rfl
      exact hp (List.prefix_append ..)
    rw [hkeep p (hne _), htwo.outside, hone.outside, hplain]
    · rintro rfl
      exact hp List.prefix_rfl
    · exact fun hpre => hp ((List.prefix_append ..).trans hpre)
    · exact fun hpre => hp ((List.prefix_append ..).trans hpre)

end Create

/-! ## 4. Restoring it -/

section Restore

variable {sys : System} {backupDir backupName restorePath : Bytes} {fs fs' : FS}

/-- What is in the backup is at `target`, over what was there. -/
structure BackupRestored (place target : Path) (fs fs' : FS) : Prop where
  cwd : fs'.cwd = fs.cwd
  cas : ∀ r, fs'.node (casDir target ++ r) =
    (fs.node (place ++ ascii "cas" :: r)).or (fs.node (casDir target ++ r))
  cache : ∀ r, fs'.node (cacheDir target ++ r) =
    (fs.node (place ++ ascii "cache" :: r)).or (fs.node (cacheDir target ++ r))
  outside : ∀ p, ¬ casDir target <+: p → ¬ cacheDir target <+: p → fs'.node p = fs.node p

/-- The two copies. -/
theorem backupRestore_copies (h : backupRestore sys backupDir backupName restorePath fs = (0, fs'))
    (hname : BackupName backupDir backupName) (hshort : restorePath.length < 1000) :
    ∃ fsCas, sys (ascii "cp -r " ++ (backupDir ++ 47 :: backupName ++ 47 :: ascii "cas") ++ ascii " " ++
        (restorePath ++ 47 :: ascii ".reprovm") ++ ascii "/") fs = (0, fsCas) ∧
      sys (ascii "cp -r " ++ (backupDir ++ 47 :: backupName ++ 47 :: ascii "cache") ++ ascii " " ++
        (restorePath ++ 47 :: ascii ".reprovm") ++ ascii "/") fsCas = (0, fs') := by
  have htext : ∀ c : Bytes, c.length ≤ 10 → snprintf 2048 (ascii "cp -r " ++
      (backupDir ++ 47 :: backupName) ++ (47 :: c ++ ascii " ") ++ restorePath ++ ascii "/.reprovm/") =
        ascii "cp -r " ++ (backupDir ++ 47 :: backupName ++ 47 :: c) ++ ascii " " ++
          (restorePath ++ 47 :: ascii ".reprovm") ++ ascii "/" := by
    intro c hc
    have hdest : ascii "/.reprovm/" = 47 :: ascii ".reprovm" ++ ascii "/" := by decide
    have hlen := hname.short
    refine (snprintf_of_lt ?_).trans (by simp [hdest])
    simp only [List.length_append, List.length_cons]
    change 6 + _ + (_ + 1 + 1) + _ + 10 < 2048
    omega
  rw [backupRestore, backupPath_eq hname,
    show ascii "/cas " = 47 :: ascii "cas" ++ ascii " " by decide,
    show ascii "/cache " = 47 :: ascii "cache" ++ ascii " " by decide] at h
  dsimp only at h
  rw [htext _ (by decide), htext _ (by decide)] at h
  rcases hcas : sys (ascii "cp -r " ++ (backupDir ++ 47 :: backupName ++ 47 :: ascii "cas") ++
    ascii " " ++ (restorePath ++ 47 :: ascii ".reprovm") ++ ascii "/") fs with ⟨ret, fsCas⟩
  rw [hcas] at h
  dsimp only at h
  split at h
  · exact absurd h failed_ne
  · rename_i hret
    obtain rfl := not_not.mp hret
    refine ⟨fsCas, rfl, ?_⟩
    rcases hcache : sys (ascii "cp -r " ++ (backupDir ++ 47 :: backupName ++ 47 :: ascii "cache") ++
      ascii " " ++ (restorePath ++ 47 :: ascii ".reprovm") ++ ascii "/") fsCas with ⟨ret, fsCache⟩
    rw [hcache] at h
    dsimp only at h
    split at h
    · exact absurd h failed_ne
    · rename_i hret
      obtain rfl := not_not.mp hret
      rw [(Prod.mk.inj h).2]

/-- **A restored backup** is over what was there. -/
theorem backupRestore_restored (hcp : CpRecursive sys) (hname : BackupName backupDir backupName)
    (hword : Word restorePath) (hshort : restorePath.length < 1000) {place target : Path}
    (hplace : backupPlace fs.cwd backupDir backupName = place)
    (htarget : resolve fs.cwd restorePath = target) (hdir : fs.node (reprovmDir target) = some .dir)
    (hcas : Apart place (casDir target))
    (h : backupRestore sys backupDir backupName restorePath fs = (0, fs')) :
    BackupRestored place target fs fs' := by
  obtain ⟨fsCas, hsysCas, hsysCache⟩ := backupRestore_copies h hname hshort
  have hres : resolve fs.cwd (backupDir ++ 47 :: backupName) = place := hplace
  have hdest : resolve fs.cwd (restorePath ++ 47 :: ascii ".reprovm") = reprovmDir target := by
    rw [resolve_name hword.notEmpty isName_reprovm, htarget]
    rfl
  have hwordDest : Word (restorePath ++ 47 :: ascii ".reprovm") := hword.below word_reprovm.plain
  -- the store
  have hone := hcp _ _ (backupDir ++ 47 :: backupName) (ascii "cas") _ (by simp) isName_cas
    (hname.word.below plain_cas) hwordDest hsysCas (by rw [hdest, hdir])
  rw [hres, hdest] at hone
  change CopiedOver _ _ (casDir target) _ at hone
  -- the cache
  have hdirCas : fsCas.node (reprovmDir target) = some .dir := by
    rw [hone.outside _ (not_prefix_self _ _), hdir]
  have htwo := hcp _ _ (backupDir ++ 47 :: backupName) (ascii "cache") _ (by simp) isName_cache
    (hname.word.below plain_cache) hwordDest hsysCache (by rw [hone.cwd, hdest, hdirCas])
  rw [hone.cwd, hres, hdest] at htwo
  change CopiedOver _ _ (cacheDir target) _ at htwo
  refine ⟨htwo.cwd.trans hone.cwd, fun r => ?_, fun r => ?_, fun p hp hp' => ?_⟩
  · have hcopy := hone.below r
    rw [List.append_assoc, List.singleton_append] at hcopy
    rw [htwo.outside, hcopy]
    rw [casDir, List.append_assoc]
    exact not_prefix_name (by decide) r
  · have hcopy := htwo.below r
    rw [List.append_assoc, List.singleton_append] at hcopy
    rw [hcopy, hone.outside _ (hcas.symm.not_prefix _), hone.outside]
    rw [cacheDir, List.append_assoc]
    exact not_prefix_name (by decide) r
  · rw [htwo.outside p hp', hone.outside p hp]

end Restore

/-! ## 5. There and back -/

/-- A backup is made at a place that was free, what happens then leaves it alone, and it is restored
below a `.reprovm` that is there. -/
structure BackupRun (sys : System) (backupDir backupName restorePath : Bytes) (now : Nat)
    (place target : Path) (fs₀ fs₁ fs₂ fs₃ : FS) : Prop where
  name : BackupName backupDir backupName
  place_eq : backupPlace fs₀.cwd backupDir backupName = place
  parent : fs₀.node place.dropLast = some .dir
  free : ∀ r, fs₀.node (place ++ r) = none
  casApart : Apart place (casDir fs₀.cwd)
  cacheApart : Apart place (cacheDir fs₀.cwd)
  create : backupCreateFull sys backupDir backupName now fs₀ = (0, fs₁)
  cwd : fs₂.cwd = fs₁.cwd
  kept : ∀ r, fs₂.node (place ++ r) = fs₁.node (place ++ r)
  word : Word restorePath
  short : restorePath.length < 1000
  target_eq : resolve fs₀.cwd restorePath = target
  targetDir : fs₂.node (reprovmDir target) = some .dir
  targetApart : Apart place (casDir target)
  restore : backupRestore sys backupDir backupName restorePath fs₂ = (0, fs₃)

/-- The trees of the store and of the cache are as they were, over what was at the target. -/
structure CameBack (target : Path) (fs₀ fs₂ fs₃ : FS) : Prop where
  cas : ∀ r, fs₃.node (casDir target ++ r) =
    (fs₀.node (casDir fs₀.cwd ++ r)).or (fs₂.node (casDir target ++ r))
  cache : ∀ r, fs₃.node (cacheDir target ++ r) =
    (fs₀.node (cacheDir fs₀.cwd ++ r)).or (fs₂.node (cacheDir target ++ r))
  outside : ∀ p, ¬ casDir target <+: p → ¬ cacheDir target <+: p → fs₃.node p = fs₂.node p

section RoundTrip

variable {sys : System} {backupDir backupName restorePath : Bytes} {now : Nat}
  {fs₀ fs₁ fs₂ fs₃ : FS} {place target : Path} {S S' : Set Bytes}

/-- What a directory's name leads to is there. -/
theorem lookup_dir {fs : FS} {s : Bytes} (hs : s ≠ []) (h : fs.node (resolve fs.cwd s) = some .dir) :
    fs.lookup s = some .dir := by
  rw [FS.lookup, if_neg hs, h]

theorem BackupRun.verify (hcp : CpRecursive sys) (hi : StoreInv S fs₀)
    (h : BackupRun sys backupDir backupName restorePath now place target fs₀ fs₁ fs₂ fs₃) :
    backupVerify backupDir backupName fs₂ = 0 := by
  obtain rfl := h.place_eq
  have hsaved := backupCreateFull_saved hcp h.name h.parent h.free h.casApart h.cacheApart h.create
  have hcwd : fs₂.cwd = fs₀.cwd := h.cwd.trans hsaved.cwd
  have hres : resolve fs₂.cwd (backupDir ++ 47 :: backupName) =
      backupPlace fs₀.cwd backupDir backupName := by rw [hcwd, backupPlace]
  have hdir : fs₂.lookup (backupDir ++ 47 :: backupName) = some .dir := by
    refine lookup_dir (by simp) ?_
    have hkept := h.kept []
    rw [List.append_nil, hsaved.dir] at hkept
    rw [hres, hkept]
  have hcas : fs₂.lookup (backupDir ++ 47 :: backupName ++ 47 :: ascii "cas") = some .dir := by
    refine lookup_dir (by simp) ?_
    have hkept := (h.kept [ascii "cas"]).trans (hsaved.cas [])
    rw [List.append_nil, hi.cas] at hkept
    rw [resolve_name (by simp) isName_cas, hres, hkept]
  have htext : snprintf 1024 (backupDir ++ 47 :: backupName ++ ascii "/cas") =
      backupDir ++ 47 :: backupName ++ 47 :: ascii "cas" := by
    have hshort := h.name.short
    refine snprintf_of_lt ?_
    rw [List.length_append, List.length_append, List.length_cons]
    change _ + 4 < _
    omega
  rw [backupVerify, backupPath_eq h.name, htext, hdir, hcas]
  rfl

theorem BackupRun.cameBack (hcp : CpRecursive sys)
    (h : BackupRun sys backupDir backupName restorePath now place target fs₀ fs₁ fs₂ fs₃) :
    CameBack target fs₀ fs₂ fs₃ := by
  obtain rfl := h.place_eq
  have hsaved := backupCreateFull_saved hcp h.name h.parent h.free h.casApart h.cacheApart h.create
  have hcwd : fs₂.cwd = fs₀.cwd := h.cwd.trans hsaved.cwd
  have hrestored := backupRestore_restored hcp h.name h.word h.short
    (congrArg (backupPlace · backupDir backupName) hcwd) ((congrArg (resolve · restorePath) hcwd).trans
      h.target_eq) h.targetDir h.targetApart h.restore
  refine ⟨fun r => ?_, fun r => ?_, hrestored.outside⟩
  · rw [hrestored.cas, h.kept, hsaved.cas]
  · rw [hrestored.cache, h.kept, hsaved.cache]

namespace CameBack

variable (h : CameBack target fs₀ fs₂ fs₃)

include h

theorem objects (q : Path) : fs₃.node (objectsDir target ++ q) =
    (fs₀.node (objectsDir fs₀.cwd ++ q)).or (fs₂.node (objectsDir target ++ q)) := by
  have hcons : ∀ cwd, objectsDir cwd ++ q = casDir cwd ++ ascii "objects" :: q := fun cwd => by
    rw [objectsDir, List.append_assoc, List.singleton_append]
  rw [hcons, hcons, h.cas]

theorem above : fs₃.node target = fs₂.node target ∧
    fs₃.node (reprovmDir target) = fs₂.node (reprovmDir target) := by
  have hlen : ∀ p : Path, p.length ≤ target.length + 1 → fs₃.node p = fs₂.node p := by
    intro p hp
    refine h.outside p (fun hpre => ?_) fun hpre => ?_
    all_goals
      have hle := hpre.length_le
      simp [casDir, cacheDir, reprovmDir] at hle
      omega
  exact ⟨hlen _ (Nat.le_succ _), hlen _ (by simp [reprovmDir])⟩

/-- A directory of the store is one again. -/
theorem level (hi : StoreInv S fs₀) (x : Bytes) :
    fs₃.node (objectsDir target ++ [x]) = some .dir ∨
      fs₀.node (objectsDir fs₀.cwd ++ [x]) = none ∧
        fs₃.node (objectsDir target ++ [x]) = fs₂.node (objectsDir target ++ [x]) := by
  rw [h.objects]
  cases hn : fs₀.node (objectsDir fs₀.cwd ++ [x]) with
  | none => exact .inr ⟨rfl, rfl⟩
  | some n =>
    rcases hi.below [x] n hn with ⟨rfl, -⟩ | ⟨data, -, -, he, -⟩
    · exact .inl rfl
    · rw [objectPath_eq] at he
      simp at he

theorem ready (hi : StoreInv S fs₀) (hready : StoreReady (fs₂.chdir target)) :
    StoreReady (fs₃.chdir target) where
  cwd := h.above.1.trans hready.cwd
  reprovm := h.above.2.trans hready.reprovm
  cas := by
    have hcas := h.cas []
    rw [List.append_nil, List.append_nil, hi.cas] at hcas
    exact hcas
  objects := by
    have hobjects := h.objects []
    rw [List.append_nil, List.append_nil, hi.objects] at hobjects
    exact hobjects
  level x d hx := by
    rcases h.level hi x with hdir | ⟨-, hsame⟩
    · exact absurd (hdir.symm.trans hx) (by simp)
    · exact hready.level x d (hsame.symm.trans hx)

/-- What the target had of a store goes on to be one. -/
theorem storeInv (hi : StoreInv S fs₀) (hi' : StoreInv S' (fs₂.chdir target)) :
    StoreInv (S ∪ S') (fs₃.chdir target) := by
  have hready := h.ready hi hi'.ready
  refine ⟨hready.cwd, hready.reprovm, hready.cas, hready.objects, fun q n hq => ?_⟩
  rw [FS.chdir_node, FS.chdir_cwd, h.objects] at hq
  rw [FS.chdir_cwd, FS.chdir_node]
  have hmove : ∀ {cwd cwd' : Path} {hash : Bytes}, objectsDir cwd ++ q = objectPath cwd hash →
      objectsDir cwd' ++ q = objectPath cwd' hash := by
    intro cwd cwd' hash he
    rw [objectPath_eq, List.append_cancel_left_eq] at he
    rw [objectPath_eq, he]
  rcases Option.or_eq_some_iff.mp hq with hold | ⟨-, hnew⟩
  · rcases hi.below q n hold with hdir | ⟨data, hdata, rfl, he, hdir⟩
    · exact .inl hdir
    · refine .inr ⟨data, .inl hdata, rfl, hmove he, ?_⟩
      rcases h.level hi ((blobHash data).take 2) with hlevel | ⟨hnone, -⟩
      · exact hlevel
      · rw [objectDir, hnone] at hdir
        cases hdir
  · rcases hi'.below q n hnew with hdir | ⟨data, hdata, rfl, he, hdir⟩
    · exact .inl hdir
    · refine .inr ⟨data, .inr hdata, rfl, hmove he, ?_⟩
      rcases h.level hi ((blobHash data).take 2) with hlevel | ⟨-, hsame⟩
      · exact hlevel
      · exact hsame.trans hdir

/-- An object that was in the store can be restored. -/
theorem blob (hi : StoreInv S fs₀) (hready : StoreReady (fs₂.chdir target)) {data dest : Bytes}
    (hobj : fs₀.node (objectPath fs₀.cwd (blobHash data)) = some (.file data))
    (hw : (fs₃.chdir target).Writable dest)
    (hne : resolve target dest ≠ objectPath target (blobHash data)) :
    casRestoreBlobToFile (fs₃.chdir target) (blobHash data) dest =
      (true, (fs₃.chdir target).set (resolve target dest) (some (.file data))) := by
  have hobj' : fs₀.node (objectsDir fs₀.cwd ++ [(blobHash data).take 2, (blobHash data).drop 2]) =
      some (.file data) := by rwa [← objectPath_eq]
  refine casRestoreBlobToFile_object (h.ready hi hready) (isHash_blobHash data) ?_ ?_ hw hne
  · rcases h.level hi ((blobHash data).take 2) with hlevel | ⟨hnone, -⟩
    · exact hlevel
    · have hdir := (hi.file hobj').2.2
      rw [objectDir, hnone] at hdir
      cases hdir
  · rw [FS.chdir_node, FS.chdir_cwd, objectPath_eq, h.objects, hobj', Option.some_or]

/-- A record that was in the cache is read again. -/
theorem record {key content : Bytes} (hk : IsHash key)
    (hread : fs₀.read (metaPath key) = some content) :
    (fs₃.chdir target).read (metaPath key) = some content := by
  have hrecord : fs₃.node (recordPath target key) =
      (fs₀.node (recordPath fs₀.cwd key)).or (fs₂.node (recordPath target key)) :=
    h.cache [key ++ ascii ".meta"]
  rw [read_metaPath hk] at hread ⊢
  rw [FS.chdir_node, FS.chdir_cwd, hrecord]
  cases hn : fs₀.node (recordPath fs₀.cwd key) with
  | none =>
    rw [hn] at hread
    cases hread
  | some n =>
    rw [hn] at hread
    exact hread

end CameBack

end RoundTrip

/-! ## 6. A record that is lost -/

/-- The tree at `p` over what is at `q`. -/
def copyTree (fs : FS) (p q : Path) : FS :=
  { fs with node := fun r =>
      if q <+: r then (fs.node (p ++ r.drop q.length)).or (fs.node r) else fs.node r }

/-- A shell that has no command but `cp -r`. -/
def cpShell (cmd : Bytes) (fs : FS) : Int × FS :=
  if cmd.take 6 = ascii "cp -r " then
    match pieces 32 (cmd.drop 6) with
    | [src, dst] =>
      let p := resolve fs.cwd src
      let q := resolve fs.cwd dst
      match p.getLast? with
      | some c =>
        if fs.node p = some .dir ∧ fs.node q = some .dir then (0, copyTree fs p (q ++ [c])) else (1, fs)
      | none => (1, fs)
    | _ => (1, fs)
  else (1, fs)

theorem copiedOver_copyTree (fs : FS) (p q : Path) : CopiedOver fs p q (copyTree fs p q) where
  cwd := rfl
  outside r hr := if_neg hr
  below r := by
    rw [copyTree]
    dsimp only
    rw [if_pos (List.prefix_append q r), List.drop_left]

theorem cpShell_recursive : CpRecursive cpShell := by
  intro fs fs' base c dst hbase hc hsrc hdst hsys _
  have hnoSpace : ∀ {s : Bytes}, Word s → 32 ∉ s := by
    refine fun hs hmem => absurd (hs.plain 32 hmem) ?_
    rw [Bytes.ascii_ofList]
    decide
  have hslash : resolve fs.cwd (dst ++ ascii "/") = resolve fs.cwd dst :=
    resolve_append hdst.notEmpty fs.cwd []
  have hlast : 32 ∉ dst ++ ascii "/" := by
    rw [List.mem_append]
    rintro (hmem | hmem)
    · exact hnoSpace hdst hmem
    · exact absurd hmem (by decide)
  have hpieces : pieces 32 (base ++ 47 :: c ++ ascii " " ++ dst ++ ascii "/") =
      [base ++ 47 :: c, dst ++ ascii "/"] := by
    rw [List.append_assoc, List.append_assoc]
    exact (Bytes.pieces_append_sep (hnoSpace hsrc)).trans
      (congrArg _ (Bytes.pieces_of_notMem hlast))
  have hcmd : ascii "cp -r " ++ (base ++ 47 :: c) ++ ascii " " ++ dst ++ ascii "/" =
      ascii "cp -r " ++ (base ++ 47 :: c ++ ascii " " ++ dst ++ ascii "/") := by
    simp only [List.append_assoc]
  rw [cpShell, hcmd, List.take_left' (by decide), List.drop_left' (by decide), if_pos rfl,
    hpieces] at hsys
  dsimp only at hsys
  rw [resolve_name hbase hc, List.getLast?_concat, hslash] at hsys
  dsimp only at hsys
  split at hsys
  · obtain rfl := (Prod.mk.inj hsys).2
    exact copiedOver_copyTree ..
  · have hret : (1 : Int) = 0 := congrArg Prod.fst hsys
    exact absurd hret (by decide)

/-- A working directory with a store, a cache with one record, and a directory for backups. -/
def recordDir : FS where
  cwd := [ascii "w"]
  node p :=
    if p = [] ∨ p = [ascii "w"] ∨ p = [ascii "w", ascii "b"] ∨ p = reprovmDir [ascii "w"] ∨
      p = casDir [ascii "w"] ∨ p = objectsDir [ascii "w"] ∨ p = cacheDir [ascii "w"] then some .dir
    else if p = cacheDir [ascii "w"] ++ [ascii "r"] then some (.file (ascii "1")) else none

end ReproVM
