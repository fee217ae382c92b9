/-
# Which comments `config_load_from_file` leaves alone

A comment is recognised piece by piece, and only the first piece of a line has the `#` at its
front.  So a line in a file is inert, for every configuration, iff none of its pieces is a setting
that the code knows (`lineEffect_id_iff`); every line of at most 1023 bytes that is blank or starts
with `#` is, and so is every blank line (`harmless_of_short`, `harmless_of_blank`).
-/
import ReproVM.Config

namespace ReproVM

open Bytes (ascii unpieces)

/-! ## 1. Settings -/

def configKeys : List Bytes :=
  [ascii "log_file", ascii "log_level", ascii "cache_dir", ascii "parallel_jobs",
    ascii "retry_attempts", ascii "timeout_seconds", ascii "enable_metrics", ascii "remote_cas_url"]

def levelNames : List Bytes := [ascii "DEBUG", ascii "INFO", ascii "WARN", ascii "ERROR"]

/-- A key of the list, and for the level one of its names. -/
def KnownSetting (k v : Bytes) : Prop :=
  k ∈ configKeys ∧ (k = ascii "log_level" → v ∈ levelNames)

/-- A piece that is read as a setting the code knows. -/
def Sets (piece : Bytes) : Prop :=
  ∃ kv, configLine piece = some kv ∧ KnownSetting kv.1 kv.2

/-- None of the pieces of the line is one. -/
def Harmless (line : Bytes) : Prop := ∀ piece ∈ fgetsAll line, ¬ Sets piece

section Settings

variable {config : ReproVMConfig} {k v piece line : Bytes}

theorem applySetting_of_unknown (h : ¬ KnownSetting k v) : applySetting config k v = config := by
  rw [KnownSetting, not_and] at h
  unfold applySetting
  by_cases hlevel : k = ascii "log_level"
  · subst hlevel
    have hv : v ∉ levelNames := fun hv => h (by decide) fun _ => hv
    simp only [levelNames, List.mem_cons, List.not_mem_nil, or_false, not_or] at hv
    rw [if_neg (by decide), if_pos rfl, if_neg hv.1, if_neg hv.2.1, if_neg hv.2.2.1,
      if_neg hv.2.2.2]
  · have hk : k ∉ configKeys := fun hk => h hk fun heq => absurd heq hlevel
    simp only [configKeys, List.mem_cons, List.not_mem_nil, or_false, not_or] at hk
    obtain ⟨h1, h2, h3, h4, h5, h6, h7, h8⟩ := hk
    rw [if_neg h1, if_neg h2, if_neg h3, if_neg h4, if_neg h5, if_neg h6, if_neg h7, if_neg h8]

theorem exists_copy_ne {size : Nat} [NeZero size] (hsize : 1 < size) (v : Bytes) :
    ∃ s : CString size, CString.copy v ≠ s := by
  by_cases h : (CString.copy v : CString size).bytes = []
  · refine ⟨⟨[1], hsize, by decide⟩, fun heq => ?_⟩
    rw [heq] at h
    exact absurd h (List.cons_ne_nil 1 [])
  · exact ⟨⟨[], Nat.zero_lt_of_lt hsize, by decide⟩, fun heq => h (congrArg CString.bytes heq)⟩

theorem exists_ne_int32 (n : Int32) : ∃ m, n ≠ m := by
  by_cases h : n = 0
  · exact ⟨1, h ▸ by decide⟩
  · exact ⟨0, h⟩

/-- A known setting does not lead to every configuration: the field it sets has other values. -/
theorem exists_ne_applySetting (h : KnownSetting k v) :
    ∃ config, ∀ config', applySetting config' k v ≠ config := by
  obtain ⟨hk, hlevel⟩ := h
  simp only [configKeys, List.mem_cons, List.not_mem_nil, or_false] at hk
  rcases hk with rfl | rfl | rfl | rfl | rfl | rfl | rfl | rfl
  · obtain ⟨s, hs⟩ := exists_copy_ne (by decide : 1 < 256) v
    exact ⟨{ configInitDefaults 0 with logFile := s }, fun _ heq =>
      hs (congrArg ReproVMConfig.logFile heq)⟩
  · -- no name stands for the level `LOG_FATAL`
    have hv := hlevel rfl
    simp only [levelNames, List.mem_cons, List.not_mem_nil, or_false] at hv
    refine ⟨{ configInitDefaults 0 with logLevel := .fatal }, fun config' heq => ?_⟩
    have hfatal := congrArg ReproVMConfig.logLevel heq
    rcases hv with rfl | rfl | rfl | rfl
    · exact (by decide : LogLevel.debug ≠ .fatal) hfatal
    · exact (by decide : LogLevel.info ≠ .fatal) hfatal
    · exact (by decide : LogLevel.warn ≠ .fatal) hfatal
    · exact (by decide : LogLevel.error ≠ .fatal) hfatal
  · obtain ⟨s, hs⟩ := exists_copy_ne (by decide : 1 < 256) v
    exact ⟨{ configInitDefaults 0 with cacheDir := s }, fun _ heq =>
      hs (congrArg ReproVMConfig.cacheDir heq)⟩
  · obtain ⟨n, hn⟩ := exists_ne_int32 (.ofInt (atoi v))
    exact ⟨{ configInitDefaults 0 with parallelJobs := n }, fun _ heq =>
      hn (congrArg ReproVMConfig.parallelJobs heq)⟩
  · obtain ⟨n, hn⟩ := exists_ne_int32 (.ofInt (atoi v))
    exact ⟨{ configInitDefaults 0 with retryAttempts := n }, fun _ heq =>
      hn (congrArg ReproVMConfig.retryAttempts heq)⟩
  · obtain ⟨n, hn⟩ := exists_ne_int32 (.ofInt (atoi v))
    exact ⟨{ configInitDefaults 0 with timeoutSeconds := n }, fun _ heq =>
      hn (congrArg ReproVMConfig.timeoutSeconds heq)⟩
  · obtain ⟨n, hn⟩ := exists_ne_int32 (.ofInt (atoi v))
    exact ⟨{ configInitDefaults 0 with enableMetrics := n }, fun _ heq =>
      hn (congrArg ReproVMConfig.enableMetrics heq)⟩
  · obtain ⟨s, hs⟩ := exists_copy_ne (by decide : 1 < 512) v
    exact ⟨{ configInitDefaults 0 with remoteCasUrl := s }, fun _ heq =>
      hs (congrArg ReproVMConfig.remoteCasUrl heq)⟩

theorem loadLine_of_not_sets (h : ¬ Sets piece) : loadLine config piece = config := by
  rw [loadLine]
  cases hl : configLine piece with
  | none => rfl
  | some kv => exact applySetting_of_unknown fun hk => h ⟨kv, hl, hk⟩

theorem exists_ne_loadLine (h : Sets piece) :
    ∃ config, ∀ config', loadLine config' piece ≠ config := by
  obtain ⟨kv, hl, hk⟩ := h
  obtain ⟨config, hne⟩ := exists_ne_applySetting hk
  refine ⟨config, fun config' => ?_⟩
  rw [loadLine, hl]
  exact hne config'

theorem foldl_loadLine_id_iff {pieces : List Bytes} :
    (∀ config, pieces.foldl loadLine config = config) ↔ ∀ piece ∈ pieces, ¬ Sets piece := by
  induction pieces using List.reverseRecOn with
  | nil => simp
  | append_singleton pieces piece ih =>
    simp only [List.foldl_append, List.foldl_cons, List.foldl_nil, List.mem_append,
      List.mem_singleton]
    constructor
    · intro h
      have hlast : ¬ Sets piece := fun hs => by
        obtain ⟨config, hne⟩ := exists_ne_loadLine hs
        exact hne _ (h config)
      have hfront := ih.mp fun config => by
        have := h config
        rwa [loadLine_of_not_sets hlast] at this
      rintro p (hp | rfl)
      · exact hfront p hp
      · exact hlast
    · intro h config
      rw [ih.mpr (fun p hp => h p (.inl hp)), loadLine_of_not_sets (h piece (.inr rfl))]

/-- **When a line is inert**: iff none of its pieces is a known setting. -/
theorem lineEffect_id_iff : (∀ config, lineEffect config line = config) ↔ Harmless line :=
  foldl_loadLine_id_iff

end Settings

/-! ## 2. Lines that are always inert -/

/-- Blank, or `#` is the first byte that is no space. -/
def IsComment (line : Bytes) : Prop :=
  line.dropWhile isGap = [] ∨ (line.dropWhile isGap).head? = some 35

instance (line : Bytes) : Decidable (IsComment line) :=
  inferInstanceAs (Decidable (line.dropWhile isGap = [] ∨ (line.dropWhile isGap).head? = some 35))

section Comments

variable {line piece : Bytes}

theorem not_sets_of_skipped (h : configLine piece = none) : ¬ Sets piece := by
  rintro ⟨kv, hkv, -⟩
  rw [h] at hkv
  cases hkv

theorem dropWhile_cstr (line : Bytes) :
    (cstr line).dropWhile isGap = (cstr (line.dropWhile isGap)).dropWhile isGap := by
  have hgap : ∀ c ∈ line.takeWhile isGap, isGap c = true := fun _ hc => List.mem_takeWhile_imp hc
  have hnul : ∀ c ∈ line.takeWhile isGap, decide (c ≠ 0) = true := by
    intro c hc
    refine decide_eq_true fun h => ?_
    subst h
    exact absurd (hgap 0 hc) (by decide)
  have hcut : cstr line = line.takeWhile isGap ++ cstr (line.dropWhile isGap) := by
    rw [cstr, cstr, ← List.takeWhile_append_of_pos hnul, List.takeWhile_append_dropWhile]
  rw [hcut, List.dropWhile_append_of_pos hgap]

theorem configLine_of_comment (h : IsComment line) : configLine line = none := by
  have hskip : ((cstr line).dropWhile isGap).head? = some 35 ∨
      ((cstr line).dropWhile isGap).head? = some 10 ∨ (cstr line).dropWhile isGap = [] := by
    rw [dropWhile_cstr]
    rcases h with h | h
    · rw [h]
      exact .inr (.inr rfl)
    · obtain ⟨t, ht⟩ := List.head?_eq_some_iff.mp h
      rw [ht]
      exact .inl rfl
  rw [configLine]
  exact if_pos hskip

/-- A comment or a blank line that fits into the buffer. -/
theorem harmless_of_short (h : IsComment line) (hl : 10 ∉ line) (hlen : line.length ≤ 1023) :
    Harmless line := by
  rcases eq_or_ne line [] with rfl | hne
  · exact fun piece hp => absurd hp (List.not_mem_nil)
  · intro piece hp
    rw [fgetsAll, fgetsPieces_short hl hne hlen, List.mem_singleton] at hp
    exact not_sets_of_skipped (configLine_of_comment (hp ▸ h))

/-- A blank line of any length. -/
theorem harmless_of_blank (h : ∀ c ∈ line, isGap c = true) : Harmless line := by
  intro piece hp
  refine not_sets_of_skipped (configLine_of_comment (.inl (List.dropWhile_eq_nil_iff.mpr ?_)))
  exact fun c hc => h c (fgetsPieces_flatten 1024 1023 line ▸ List.mem_flatten_of_mem hp hc)

end Comments

/-! ## 3. Files -/

/-- The second list of lines has more lines, all of a certain kind. -/
inductive Inserted (new : Bytes → Prop) : List Bytes → List Bytes → Prop
  | nil : Inserted new [] []
  | keep {lines lines' : List Bytes} (line : Bytes) (h : Inserted new lines lines') :
      Inserted new (line :: lines) (line :: lines')
  | insert {lines lines' : List Bytes} {line : Bytes} (hline : new line)
      (h : Inserted new lines lines') : Inserted new lines (line :: lines')

section Files

variable {new : Bytes → Prop} {lines lines' : List Bytes}

theorem Inserted.notMem (h : Inserted new lines lines') (hnew : ∀ c, new c → 10 ∉ c)
    (hlines : ∀ l ∈ lines, 10 ∉ l) : ∀ l ∈ lines', 10 ∉ l := by
  induction h with
  | nil => exact hlines
  | keep line _ ih =>
    intro l hl
    rcases List.mem_cons.mp hl with rfl | hl
    · exact hlines l List.mem_cons_self
    · exact ih (fun l hl => hlines l (List.mem_cons_of_mem _ hl)) l hl
  | insert hline _ ih =>
    intro l hl
    rcases List.mem_cons.mp hl with rfl | hl
    · exact hnew l hline
    · exact ih hlines l hl

theorem Inserted.foldl (h : Inserted new lines lines') (hnew : ∀ c, new c → Harmless c)
    (config : ReproVMConfig) :
    lines'.foldl lineEffect config = lines.foldl lineEffect config := by
  induction h generalizing config with
  | nil => rfl
  | keep line _ ih => exact ih (lineEffect config line)
  | insert hline _ ih =>
    rw [List.foldl_cons, lineEffect_id_iff.mpr (hnew _ hline)]
    exact ih config

theorem configLoadFromFile_unpieces (hlines : ∀ l ∈ lines, 10 ∉ l) (config : ReproVMConfig) :
    configLoadFromFile config (some (unpieces 10 lines)) = (lines.foldl lineEffect config, 0) := by
  rw [configLoadFromFile, foldl_fgets_unpieces hlines]

/-- **When comments and blank lines are inert**: lines of that kind can be inserted anywhere in
any file, any number of them, and the configuration stays the same whatever it was, iff none of
their pieces is read as a known setting. -/
theorem comments_inert_iff (hnew : ∀ c, new c → 10 ∉ c ∧ IsComment c) :
    (∀ config lines lines', (∀ l ∈ lines, 10 ∉ l) → Inserted new lines lines' →
      configLoadFromFile config (some (unpieces 10 lines')) =
        configLoadFromFile config (some (unpieces 10 lines))) ↔
    ∀ c, new c → Harmless c := by
  constructor
  · intro h c hc
    refine lineEffect_id_iff.mp fun config => ?_
    have hone := h config [] [c] (by simp) (.insert hc .nil)
    rw [configLoadFromFile_unpieces (by simpa using (hnew c hc).1),
      configLoadFromFile_unpieces (by simp)] at hone
    exact congrArg Prod.fst hone
  · intro h config lines lines' hlines hins
    rw [configLoadFromFile_unpieces (hins.notMem (fun c hc => (hnew c hc).1) hlines),
      configLoadFromFile_unpieces hlines, hins.foldl h]

/-- A note in front of a setting. -/
theorem note_inert :
    configLoadFromFile (configInitDefaults 4)
        (some (unpieces 10 [ascii " # twice", ascii "parallel_jobs=2"])) =
      configLoadFromFile (configInitDefaults 4) (some (unpieces 10 [ascii "parallel_jobs=2"])) :=
  (@comments_inert_iff (· = ascii " # twice")
      (by rintro c rfl; exact ⟨by decide, .inr (by decide)⟩)).mpr
    (by rintro c rfl; exact harmless_of_short (.inr (by decide)) (by decide) (by decide))
    _ _ _ (by decide) (.insert rfl (.keep _ .nil))

/-- A line of `#` as long as the buffer, and then a setting. -/
def longComment : Bytes := List.replicate 1023 35 ++ ascii "parallel_jobs=7"

/-- The end of the long comment is read as a setting. -/
theorem longComment_sets :
    IsComment longComment ∧ 10 ∉ longComment ∧
    (configLoadFromFile (configInitDefaults 4) (some (unpieces 10 [ascii "parallel_jobs=2"]))).1.parallelJobs
        = 2 ∧
    (configLoadFromFile (configInitDefaults 4)
        (some (unpieces 10 [ascii "parallel_jobs=2", longComment]))).1.parallelJobs = 7 :=
  ⟨.inr (by decide +kernel), by decide +kernel, by decide +kernel, by decide +kernel⟩

end Files

end ReproVM
