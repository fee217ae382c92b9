/-
# Which backups `backup_cleanup_old` deletes

`backup_list` scans the directory twice, once to count the backups and once to copy their names,
and `backup_cleanup_old` deletes the first `count - keep_count` names of the second scan, as
"oldest".  Nothing sorts them in between, so what remains are the last names of the listing
(`cleanup_backups`), and these are the most recent backups only when the listing happens to have
the others in front of them (`cleanup_newest_iff`).
-/
import ReproVM.Util
import Mathlib.Data.List.Perm.Basic
import Mathlib.Data.List.Count
import Mathlib.Data.List.Nodup

namespace ReproVM

open Bytes (ascii)

/-! ## 1. The code -/

/-- An entry that `readdir` returns; `isDir` is `d_type == DT_DIR`. -/
structure DirEntry where
  dName : Bytes
  isDir : Bool
deriving DecidableEq

/-- The entries a scan takes for backups: directories that are not hidden. -/
def DirEntry.isBackup (entry : DirEntry) : Bool := entry.dName.head? ≠ some 46 && entry.isDir

def backupsIn (dir : List DirEntry) : List DirEntry := dir.filter DirEntry.isBackup

/-- What the two passes of `readdir` over an open directory return. -/
structure Scan where
  first : List DirEntry
  second : List DirEntry

/-- The return value, `*count` and the names that were copied; `none` is that `opendir` fails. -/
def backupList : Option Scan → Int × Nat × List Bytes
  | none => (-1, 0, [])
  | some scan =>
    let count := scan.first.countP DirEntry.isBackup
    (0, count, ((backupsIn scan.second).take count).map DirEntry.dName)

def deleteCommand (backupDir backupName : Bytes) : Bytes :=
  let backupPath := snprintf 1024 (backupDir ++ ascii "/" ++ backupName)
  snprintf 2048 (ascii "rm -rf " ++ backupPath)

/-- The return value and the directory afterwards; `system` is what a command does to the entries
of the directory.  `none` is an access where the array holds no name. -/
def backupCleanupOld (system : Bytes → List DirEntry → List DirEntry) (backupDir : Bytes)
    (scan : Option Scan) (keepCount : Int) (dir : List DirEntry) :
    Option (Int × List DirEntry) :=
  let (ret, count, backups) := backupList scan
  if ret ≠ 0 then some (-1, dir)
  else if count ≤ keepCount then some (0, dir)
  else
    let toDelete := (count - keepCount).toNat
    ((List.range toDelete).foldlM (fun dir i =>
      backups[i]?.map fun name => system (deleteCommand backupDir name) dir) dir).map fun dir =>
        (0, dir)

/-! ## 2. The front and the end of a list -/

section Ranks

variable {α : Type*} (key : α → Int) {l : List α} {k : Nat}

/-- How many of the list are above `a`. -/
def above (l : List α) (a : α) : Nat := l.countP fun b => key a < key b

theorem above_append (l l' : List α) (a : α) :
    above key (l ++ l') a = above key l a + above key l' a := List.countP_append ..

theorem above_lt_length {a : α} (ha : a ∈ l) : above key l a < l.length := by
  refine Nat.lt_of_le_of_ne List.countP_le_length fun h => ?_
  have := List.countP_eq_length.mp h a ha
  simp at this

/-- **The `k` at the end are the `k` highest** iff every one before them is below each of them. -/
theorem mem_drop_iff_above (hl : l.Nodup) :
    (∀ a ∈ l, a ∈ l.drop (l.length - k) ↔ above key l a < k) ↔
      ∀ a ∈ l.take (l.length - k), ∀ b ∈ l.drop (l.length - k), key a < key b := by
  have hsplit : l.take (l.length - k) ++ l.drop (l.length - k) = l := List.take_append_drop ..
  constructor
  · intro h a ha b hb
    have hab : a ∉ l.drop (l.length - k) := fun hd =>
      (List.disjoint_take_drop hl (Nat.le_refl _)) ha hd
    have hlow : k ≤ above key l a :=
      Nat.le_of_not_lt (mt (h a (List.mem_of_mem_take ha)).mpr hab)
    have hhigh : above key l b < k := (h b (List.mem_of_mem_drop hb)).mp hb
    by_contra hle
    have hmono : above key l a ≤ above key l b := by
      refine List.countP_mono_left fun c _ hc => ?_
      simp only [decide_eq_true_eq] at hc ⊢
      omega
    omega
  · intro h a ha
    have hsum : above key l a
        = above key (l.take (l.length - k)) a + above key (l.drop (l.length - k)) a := by
      rw [← above_append, hsplit]
    have hlen : (l.drop (l.length - k)).length ≤ k := by
      rw [List.length_drop]
      omega
    rw [← hsplit, List.mem_append] at ha
    rcases ha with ha | ha
    · -- everything at the end is above it, and the end is `k` long
      have hab : a ∉ l.drop (l.length - k) := fun hd =>
        (List.disjoint_take_drop hl (Nat.le_refl _)) ha hd
      have hfull : (l.drop (l.length - k)).length = k := by
        have := List.length_pos_of_mem ha
        rw [List.length_take] at this
        rw [List.length_drop]
        omega
      have hall : above key (l.drop (l.length - k)) a = (l.drop (l.length - k)).length :=
        List.countP_eq_length.mpr fun b hb => decide_eq_true (h a ha b hb)
      refine iff_of_false hab ?_
      omega
    · have hnone : above key (l.take (l.length - k)) a = 0 := by
        refine List.countP_eq_zero.mpr fun b hb => ?_
        have := h b hb a ha
        simp
        omega
      have hlt := above_lt_length key ha
      refine iff_of_true ha ?_
      omega

end Ranks

/-! ## 3. What remains -/

section Cleanup

variable {system : Bytes → List DirEntry → List DirEntry} {backupDir : Bytes} {scan : Scan}
  {dir : List DirEntry}

/-- Each deletion command removes exactly the directory of its backup. -/
def Removes (system : Bytes → List DirEntry → List DirEntry) (backupDir : Bytes)
    (backups : List DirEntry) : Prop :=
  ∀ b ∈ backups, ∀ dir, system (deleteCommand backupDir b.dName) dir
    = dir.filter fun entry => entry.dName ≠ b.dName

/-- Two complete passes over the directory, each in an order of its own. -/
structure Scan.Of (scan : Scan) (dir : List DirEntry) : Prop where
  first : scan.first.Perm dir
  second : scan.second.Perm dir
  names : (dir.map DirEntry.dName).Nodup

theorem mem_backupsIn {entry : DirEntry} :
    entry ∈ backupsIn dir ↔ entry ∈ dir ∧ entry.isBackup = true := List.mem_filter

theorem Scan.Of.perm (h : scan.Of dir) : (backupsIn scan.second).Perm (backupsIn dir) :=
  h.second.filter _

theorem Scan.Of.backupList (h : scan.Of dir) :
    backupList (some scan) =
      (0, (backupsIn scan.second).length, (backupsIn scan.second).map DirEntry.dName) := by
  have hcount : scan.first.countP DirEntry.isBackup = (backupsIn scan.second).length := by
    rw [backupsIn, ← List.countP_eq_length_filter]
    exact (h.first.trans h.second.symm).countP_eq _
  rw [ReproVM.backupList, hcount, List.take_length]

/-- The loop of deletions, over the first names. -/
theorem foldlM_delete (hsystem : Removes system backupDir (backupsIn scan.second)) (m : Nat)
    (hm : m ≤ (backupsIn scan.second).length) :
    (List.range m).foldlM (fun dir i => ((backupsIn scan.second).map DirEntry.dName)[i]?.map
        fun name => system (deleteCommand backupDir name) dir) dir =
      some (dir.filter fun entry =>
        entry.dName ∉ ((backupsIn scan.second).take m).map DirEntry.dName) := by
  induction m with
  | zero => simp
  | succ m ih =>
    have hlt : m < (backupsIn scan.second).length := hm
    rw [List.range_succ, List.foldlM_append, ih (Nat.le_of_succ_le hm), Option.bind_eq_bind,
      Option.bind_some, List.foldlM_cons, List.getElem?_map, List.getElem?_eq_getElem hlt,
      Option.map_some, Option.map_some, hsystem _ (List.getElem_mem hlt), List.filter_filter,
      List.take_succ_eq_append_getElem hlt]
    refine congrArg some (List.filter_congr fun entry _ => ?_)
    rw [Bool.eq_iff_iff]
    simp only [Bool.and_eq_true, decide_eq_true_eq, List.map_append, List.mem_append,
      List.map_cons, List.map_nil, List.mem_singleton, not_or]
    exact and_comm

/-- **What remains** of the directory: everything except the backups at the front of the listing. -/
theorem cleanup_eq (hsystem : Removes system backupDir (backupsIn scan.second)) (h : scan.Of dir)
    (keep : Nat) :
    backupCleanupOld system backupDir (some scan) keep dir =
      some (0, dir.filter fun entry => entry.dName ∉
        ((backupsIn scan.second).take ((backupsIn scan.second).length - keep)).map
          DirEntry.dName) := by
  rw [backupCleanupOld, h.backupList]
  dsimp only
  rw [if_neg (by simp)]
  split
  case isTrue hle =>
    rw [Nat.sub_eq_zero_of_le (by omega)]
    simp
  case isFalse hlt =>
    rw [show ((backupsIn scan.second).length - (keep : Int)).toNat
        = (backupsIn scan.second).length - keep by omega, foldlM_delete hsystem _ (Nat.sub_le ..)]
    rfl

/-- The backups that remain are the last ones of the listing. -/
theorem mem_cleanup (h : scan.Of dir) (m : Nat) {entry : DirEntry} :
    entry ∈ backupsIn (dir.filter fun entry =>
        entry.dName ∉ ((backupsIn scan.second).take m).map DirEntry.dName) ↔
      entry ∈ (backupsIn scan.second).drop m := by
  have hnames : ((backupsIn scan.second).map DirEntry.dName).Nodup :=
    (h.perm.map _).nodup_iff.mpr (h.names.sublist (List.filter_sublist.map _))
  have hmem : entry ∈ dir ∧ entry.isBackup = true ↔ entry ∈ backupsIn scan.second := by
    rw [h.perm.mem_iff, mem_backupsIn]
  rw [mem_backupsIn, List.mem_filter, decide_eq_true_eq, and_right_comm, hmem]
  constructor
  · rintro ⟨hin, hfront⟩
    rw [← List.take_append_drop m (backupsIn scan.second), List.mem_append] at hin
    exact hin.resolve_left fun hfst => hfront (List.mem_map_of_mem hfst)
  · intro hend
    refine ⟨List.mem_of_mem_drop hend, fun hfront => ?_⟩
    rw [List.map_take] at hfront
    exact List.disjoint_take_drop hnames (Nat.le_refl m) hfront
      (List.map_drop ▸ List.mem_map_of_mem hend)

/-- What remains of the backups are those with fewer than `keep` more recent ones. -/
def KeepsNewest (created : Bytes → Int) (keep : Nat) (dir dir' : List DirEntry) : Prop :=
  ∀ entry, entry ∈ backupsIn dir' ↔ entry ∈ backupsIn dir ∧
    above (fun b => created b.dName) (backupsIn dir) entry < keep

/-- **When the newest backups are kept**: iff the scan lists each of the backups at the front,
all but `keep`, before more recent ones only.  The creation times need not even be distinct. -/
theorem cleanup_newest_iff (hsystem : Removes system backupDir (backupsIn dir)) (h : scan.Of dir)
    (created : Bytes → Int) (keep : Nat) :
    (∃ ret dir', backupCleanupOld system backupDir (some scan) keep dir = some (ret, dir') ∧
      KeepsNewest created keep dir dir') ↔
    ∀ a ∈ (backupsIn scan.second).take ((backupsIn scan.second).length - keep),
      ∀ b ∈ (backupsIn scan.second).drop ((backupsIn scan.second).length - keep),
        created a.dName < created b.dName := by
  have hnodup : (backupsIn scan.second).Nodup :=
    h.perm.nodup_iff.mpr ((List.Nodup.of_map _ h.names).filter _)
  have hrun := cleanup_eq (fun b hb => hsystem b (h.perm.mem_iff.mp hb)) h keep
  have habove : ∀ a, above (fun b : DirEntry => created b.dName) (backupsIn scan.second) a
      = above (fun b => created b.dName) (backupsIn dir) a := fun a => h.perm.countP_eq _
  rw [← mem_drop_iff_above (fun b : DirEntry => created b.dName) hnodup]
  constructor
  · rintro ⟨ret, dir', heq, hkeeps⟩ a ha
    obtain ⟨-, rfl⟩ := Prod.mk.inj (Option.some.inj (hrun.symm.trans heq))
    rw [← mem_cleanup h, hkeeps, habove]
    exact and_iff_right (h.perm.mem_iff.mp ha)
  · intro hend
    refine ⟨_, _, hrun, fun entry => ?_⟩
    rw [mem_cleanup h, ← habove, ← h.perm.mem_iff]
    exact ⟨fun hd => ⟨List.mem_of_mem_drop hd, (hend entry (List.mem_of_mem_drop hd)).mp hd⟩,
      fun hin => (hend entry hin.1).mpr hin.2⟩

/-- `rm -rf` in a fresh backup directory. -/
def shellRm (cmd : Bytes) (dir : List DirEntry) : List DirEntry :=
  dir.filter fun entry => cmd ≠ ascii "rm -rf .reprovm/backups/" ++ entry.dName

/-- A hidden entry, a plain file and two backups. -/
def twoBackups : List DirEntry :=
  [⟨ascii ".", true⟩, ⟨ascii "old", true⟩, ⟨ascii "notes", false⟩, ⟨ascii "new", true⟩]

theorem removes_twoBackups :
    Removes shellRm (ascii ".reprovm/backups") (backupsIn twoBackups) := by
  intro b hb dir
  have hcmd : deleteCommand (ascii ".reprovm/backups") b.dName
      = ascii "rm -rf .reprovm/backups/" ++ b.dName := by
    revert b
    decide
  rw [shellRm, hcmd]
  refine List.filter_congr fun entry _ => ?_
  simp [eq_comm]

/-- Listed by age, the newer one is kept. -/
theorem cleanup_newest_two :
    ∃ ret dir', backupCleanupOld shellRm (ascii ".reprovm/backups") (some ⟨twoBackups, twoBackups⟩)
        1 twoBackups = some (ret, dir') ∧
      KeepsNewest (fun name => if name = ascii "new" then 2 else 1) 1 twoBackups dir' :=
  (cleanup_newest_iff removes_twoBackups ⟨.refl _, .refl _, by decide⟩ _ 1).mpr (by decide)

/-- Listed the other way round, the newer one is deleted and the older one is kept. -/
theorem cleanup_deletes_newest :
    Scan.Of ⟨twoBackups.reverse, twoBackups.reverse⟩ twoBackups ∧
    ∃ dir', backupCleanupOld shellRm (ascii ".reprovm/backups")
        (some ⟨twoBackups.reverse, twoBackups.reverse⟩) 1 twoBackups = some (0, dir') ∧
      ¬ KeepsNewest (fun name => if name = ascii "new" then 2 else 1) 1 twoBackups dir' := by
  refine ⟨⟨List.reverse_perm _, List.reverse_perm _, by decide⟩,
    [⟨ascii ".", true⟩, ⟨ascii "old", true⟩, ⟨ascii "notes", false⟩], by decide, fun h => ?_⟩
  exact absurd ((h ⟨ascii "new", true⟩).mpr (by decide)) (by decide)

end Cleanup

end ReproVM
