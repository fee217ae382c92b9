/-
# Settings from the environment

`config_load_from_env` has a list of variables of its own.  Seven of them are settings that a
configuration file has a key for, the others are fields that no line of a file reaches.  Read after
a file, whatever is in it, the environment does what lines at the end of the file would do, one for
each variable that is set (`env_as_lines`): it overrides what the file says of the same settings,
and nothing the file says decides a field of the other variables.

The values must be such that a line can carry them.  An empty `REPROVM_LOG_FILE` empties the name
of the log file, while the line `log_file=` is skipped.
-/
import ReproVM.ConfigRoundTrip

namespace ReproVM

open Bytes (ascii pieces unpieces)

/-! ## 1. `config_load_from_env` -/

/-- A variable, and what is done with its value when it is set. -/
structure EnvVar where
  name : Bytes
  set : ReproVMConfig → Bytes → ReproVMConfig

/-- The sizes of the buffers that are copied into. -/
theorem neZero_256 : NeZero 256 := inferInstance

theorem neZero_512 : NeZero 512 := inferInstance

attribute [local instance] neZero_256 neZero_512

def envVars : List EnvVar :=
  -- Logging
  [⟨ascii "REPROVM_LOG_LEVEL", fun config env =>
      if env = ascii "DEBUG" then { config with logLevel := .debug }
      else if env = ascii "INFO" then { config with logLevel := .info }
      else if env = ascii "WARN" then { config with logLevel := .warn }
      else if env = ascii "ERROR" then { config with logLevel := .error }
      else config⟩,
    ⟨ascii "REPROVM_LOG_FILE", fun config env => { config with logFile := .copy env }⟩,
    ⟨ascii "REPROVM_NO_COLOR", fun config _ => { config with logColors := 0, enableColors := 0 }⟩,
    -- Cache
    ⟨ascii "REPROVM_CACHE_DIR", fun config env => { config with cacheDir := .copy env }⟩,
    ⟨ascii "REPROVM_MAX_CACHE_SIZE", fun config env =>
      { config with maxCacheSizeMb := .ofInt (atoi env) }⟩,
    -- Execution
    ⟨ascii "REPROVM_JOBS", fun config env => { config with parallelJobs := .ofInt (atoi env) }⟩,
    ⟨ascii "REPROVM_RETRY_ATTEMPTS", fun config env =>
      { config with retryAttempts := .ofInt (atoi env) }⟩,
    ⟨ascii "REPROVM_TIMEOUT", fun config env =>
      { config with timeoutSeconds := .ofInt (atoi env) }⟩,
    -- Remote CAS
    ⟨ascii "REPROVM_REMOTE_CAS_URL", fun config env =>
      { config with remoteCasUrl := .copy env, enableRemoteCas := 1 }⟩,
    ⟨ascii "REPROVM_REMOTE_CAS_ACCESS_KEY", fun config env =>
      { config with remoteCasAccessKey := .copy env }⟩,
    ⟨ascii "REPROVM_REMOTE_CAS_SECRET_KEY", fun config env =>
      { config with remoteCasSecretKey := .copy env }⟩,
    -- Features
    ⟨ascii "REPROVM_VERBOSE", fun config env => { config with verbose := .ofInt (atoi env) }⟩,
    ⟨ascii "REPROVM_FORCE", fun config env => { config with forceRebuild := .ofInt (atoi env) }⟩,
    ⟨ascii "REPROVM_NO_PROGRESS", fun config _ => { config with enableProgressBar := 0 }⟩]

/-- `if ((env = getenv(name)))`. -/
def ifSet (getenv : Bytes → Option Bytes) (config : ReproVMConfig) (v : EnvVar) : ReproVMConfig :=
  match getenv v.name with
  | some env => v.set config env
  | none => config

def configLoadFromEnv (getenv : Bytes → Option Bytes) (config : ReproVMConfig) : ReproVMConfig :=
  envVars.foldl (ifSet getenv) config

/-! ## 2. Variables and lines -/

/-- The variables that a file has a key for. -/
def envKeys : List (Bytes × Bytes) :=
  [(ascii "REPROVM_LOG_LEVEL", ascii "log_level"), (ascii "REPROVM_LOG_FILE", ascii "log_file"),
    (ascii "REPROVM_CACHE_DIR", ascii "cache_dir"), (ascii "REPROVM_JOBS", ascii "parallel_jobs"),
    (ascii "REPROVM_RETRY_ATTEMPTS", ascii "retry_attempts"),
    (ascii "REPROVM_TIMEOUT", ascii "timeout_seconds"),
    (ascii "REPROVM_REMOTE_CAS_URL", ascii "remote_cas_url")]

/-- The line for a variable that is set and has a key. -/
def envLine (getenv : Bytes → Option Bytes) (v : EnvVar) : Option Bytes :=
  (envKeys.lookup v.name).bind fun k => (getenv v.name).map fun env => k ++ 61 :: env

/-- The lines for all of them, in the order in which the environment is read. -/
def envLines (getenv : Bytes → Option Bytes) : List Bytes := envVars.filterMap (envLine getenv)

/-- The environment without the variables that have a key. -/
def keyless (getenv : Bytes → Option Bytes) (name : Bytes) : Option Bytes :=
  if (envKeys.lookup name).isSome then none else getenv name

/-- Every value can be carried by a line. -/
def Carried (getenv : Bytes → Option Bytes) : Prop :=
  ∀ name env, (envKeys.lookup name).isSome → getenv name = some env → Plain env ∧ env.length ≤ 511

section Env

variable {getenv : Bytes → Option Bytes} {v : EnvVar} {config : ReproVMConfig} {line : Bytes}

/-- What a line of a file can do. -/
inductive FileSetter : (ReproVMConfig → ReproVMConfig) → Prop
  | logFile (s : CString 256) : FileSetter fun c => { c with logFile := s }
  | logLevel (l : LogLevel) : FileSetter fun c => { c with logLevel := l }
  | cacheDir (s : CString 256) : FileSetter fun c => { c with cacheDir := s }
  | parallelJobs (n : Int32) : FileSetter fun c => { c with parallelJobs := n }
  | retryAttempts (n : Int32) : FileSetter fun c => { c with retryAttempts := n }
  | timeoutSeconds (n : Int32) : FileSetter fun c => { c with timeoutSeconds := n }
  | enableMetrics (n : Int32) : FileSetter fun c => { c with enableMetrics := n }
  | remoteCasUrl (s : CString 512) :
      FileSetter fun c => { c with remoteCasUrl := s, enableRemoteCas := 1 }
  | nothing : FileSetter fun c => c

theorem FileSetter.ite {p : Prop} [Decidable p] {f g : ReproVMConfig → ReproVMConfig}
    (hf : FileSetter f) (hg : FileSetter g) : FileSetter fun c => if p then f c else g c := by
  by_cases h : p
  · simpa only [if_pos h] using hf
  · simpa only [if_neg h] using hg

theorem fileSetter_applySetting (k w : Bytes) : FileSetter fun c => applySetting c k w := by
  refine .ite (.logFile _) (.ite ?_ (.ite (.cacheDir _) (.ite (.parallelJobs _)
    (.ite (.retryAttempts _) (.ite (.timeoutSeconds _) (.ite (.enableMetrics _)
      (.ite (.remoteCasUrl _) .nothing)))))))
  exact .ite (.logLevel _) (.ite (.logLevel _) (.ite (.logLevel _) (.ite (.logLevel _) .nothing)))

/-- A variable with a key is set as the key is; one without a key sets what no line does. -/
theorem envVars_cases (hv : v ∈ envVars) :
    (∃ k ∈ configKeys, envKeys.lookup v.name = some k ∧
        ∀ config env, v.set config env = applySetting config k env) ∨
      envKeys.lookup v.name = none ∧ ∀ f, FileSetter f → ∀ config env,
        f (v.set config env) = v.set (f config) env := by
  simp only [envVars, List.mem_cons, List.not_mem_nil, or_false] at hv
  rcases hv with rfl | rfl | rfl | rfl | rfl | rfl | rfl | rfl | rfl | rfl | rfl | rfl | rfl | rfl
  · exact .inl ⟨ascii "log_level", by decide, by decide, fun _ _ => rfl⟩
  · exact .inl ⟨ascii "log_file", by decide, by decide, fun _ _ => rfl⟩
  · exact .inr ⟨by decide, fun _ hf _ _ => by cases hf <;> rfl⟩
  · exact .inl ⟨ascii "cache_dir", by decide, by decide, fun _ _ => rfl⟩
  · exact .inr ⟨by decide, fun _ hf _ _ => by cases hf <;> rfl⟩
  · exact .inl ⟨ascii "parallel_jobs", by decide, by decide, fun _ _ => rfl⟩
  · exact .inl ⟨ascii "retry_attempts", by decide, by decide, fun _ _ => rfl⟩
  · exact .inl ⟨ascii "timeout_seconds", by decide, by decide, fun _ _ => rfl⟩
  · exact .inl ⟨ascii "remote_cas_url", by decide, by decide, fun _ _ => rfl⟩
  · exact .inr ⟨by decide, fun _ hf _ _ => by cases hf <;> rfl⟩
  · exact .inr ⟨by decide, fun _ hf _ _ => by cases hf <;> rfl⟩
  · exact .inr ⟨by decide, fun _ hf _ _ => by cases hf <;> rfl⟩
  · exact .inr ⟨by decide, fun _ hf _ _ => by cases hf <;> rfl⟩
  · exact .inr ⟨by decide, fun _ hf _ _ => by cases hf <;> rfl⟩

/-- What the other variables set is set before a piece of a file or after it. -/
theorem loadLine_ifSet (hv : v ∈ envVars) (config : ReproVMConfig) (piece : Bytes) :
    loadLine (ifSet (keyless getenv) config v) piece
      = ifSet (keyless getenv) (loadLine config piece) v := by
  rcases envVars_cases hv with ⟨k, -, hk, -⟩ | ⟨hk, hcomm⟩
  · simp [ifSet, keyless, hk]
  · rw [ifSet, ifSet, keyless, hk]
    cases getenv v.name with
    | none => rfl
    | some env =>
      rw [loadLine, loadLine]
      cases configLine piece with
      | none => rfl
      | some kv => exact hcomm _ (fileSetter_applySetting kv.1 kv.2) config env

theorem foldl_loadLine_ifSet_one (hv : v ∈ envVars) (config : ReproVMConfig) (ps : List Bytes) :
    ps.foldl loadLine (ifSet (keyless getenv) config v)
      = ifSet (keyless getenv) (ps.foldl loadLine config) v := by
  induction ps generalizing config with
  | nil => rfl
  | cons p ps ih => rw [List.foldl_cons, loadLine_ifSet hv, ih, List.foldl_cons]

theorem foldl_loadLine_ifSet {vs : List EnvVar} (hvs : vs ⊆ envVars) (config : ReproVMConfig)
    (ps : List Bytes) :
    ps.foldl loadLine (vs.foldl (ifSet (keyless getenv)) config)
      = vs.foldl (ifSet (keyless getenv)) (ps.foldl loadLine config) := by
  induction vs generalizing config with
  | nil => rfl
  | cons v vs ih =>
    rw [List.foldl_cons, List.foldl_cons, ih (List.subset_of_cons_subset hvs),
      foldl_loadLine_ifSet_one (hvs List.mem_cons_self)]

/-- **The environment, as lines**: the ones with a key last. -/
theorem foldl_ifSet (hc : Carried getenv) {vs : List EnvVar} (hvs : vs ⊆ envVars)
    (config : ReproVMConfig) :
    vs.foldl (ifSet getenv) config
      = (vs.filterMap (envLine getenv)).foldl lineEffect
          (vs.foldl (ifSet (keyless getenv)) config) := by
  induction vs generalizing config with
  | nil => rfl
  | cons v vs ih =>
    have hrest := List.subset_of_cons_subset hvs
    rw [List.foldl_cons, List.foldl_cons, ih hrest]
    rcases envVars_cases (hvs List.mem_cons_self) with ⟨k, hmem, hk, hset⟩ | ⟨hk, -⟩
    · have hskip : ifSet (keyless getenv) config v = config := by simp [ifSet, keyless, hk]
      cases henv : getenv v.name with
      | none =>
        have hline : envLine getenv v = none := by simp [envLine, hk, henv]
        rw [List.filterMap_cons_none hline, hskip, ifSet, henv]
      | some env =>
        have hline : envLine getenv v = some (k ++ 61 :: env) := by simp [envLine, hk, henv]
        obtain ⟨hplain, hlen⟩ := hc v.name env (by rw [hk]; rfl) henv
        have heffect : ∀ c, lineEffect c (k ++ 61 :: env) = v.set c env := fun c => by
          rw [lineEffect_setting (key_of_mem k (List.mem_cons_of_mem _ hmem)) hplain hlen, hset]
        rw [List.filterMap_cons_some hline, List.foldl_cons, hskip, ifSet, henv]
        dsimp only
        rw [← heffect, lineEffect, ← foldl_loadLine_ifSet hrest]
        rfl
    · have hsame : ifSet (keyless getenv) config v = ifSet getenv config v := by
        simp [ifSet, keyless, hk]
      have hline : envLine getenv v = none := by simp [envLine, hk]
      rw [List.filterMap_cons_none hline, hsame]

theorem newline_notMem_envLines (hc : Carried getenv) : ∀ l ∈ envLines getenv, 10 ∉ l := by
  intro l hl
  obtain ⟨v, hv, hline⟩ := List.mem_filterMap.mp hl
  rcases envVars_cases hv with ⟨k, hmem, hk, -⟩ | ⟨hk, -⟩
  · simp only [envLine, hk, Option.bind_some, Option.map_eq_some_iff] at hline
    obtain ⟨env, henv, rfl⟩ := hline
    have hplain := (hc v.name env (by rw [hk]; rfl) henv).1
    simp [(key_of_mem k (List.mem_cons_of_mem _ hmem)).noNewline, hplain.noNewline]
  · simp [envLine, hk] at hline

/-- Lines after a file are read after it. -/
theorem foldl_loadLine_append {lines : List Bytes} (hlines : ∀ l ∈ lines, 10 ∉ l)
    (content : Bytes) (config : ReproVMConfig) :
    (fgetsAll (content ++ 10 :: lines.flatMap (· ++ [10]))).foldl loadLine config
      = lines.foldl lineEffect ((fgetsAll content).foldl loadLine config) := by
  have hcut : pieces 10 (lines.flatMap (· ++ [10])) = lines ++ [[]] := by
    rw [Bytes.flatMap_sep, Bytes.pieces_unpieces (by simp)]
    intro x hx
    rcases List.mem_append.mp hx with hx | hx
    · exact hlines x hx
    · simp [List.mem_singleton.mp hx]
  have hread : ∀ s, (fgetsAll s).foldl loadLine config = (pieces 10 s).foldl lineEffect config :=
    fun s => by
      conv_lhs => rw [← Bytes.unpieces_pieces 10 s]
      exact foldl_fgets_unpieces fun l hl => Bytes.notMem_of_mem_pieces hl
  rw [hread, hread, Bytes.pieces_append_cons, hcut, List.foldl_append, List.foldl_append]
  rfl

end Env

/-! ## 3. The environment over a file -/

/-- **The environment does what lines at the end of the file would do**, for every file and every
environment whose values a line can carry; the variables without a key may as well be read before
the file. -/
theorem env_as_lines {getenv : Bytes → Option Bytes} (hc : Carried getenv) (config : ReproVMConfig)
    (content : Bytes) :
    configLoadFromEnv getenv (configLoadFromFile config (some content)).1
      = (configLoadFromFile (configLoadFromEnv (keyless getenv) config)
          (some (content ++ 10 :: (envLines getenv).flatMap (· ++ [10])))).1 := by
  have hsub : envVars ⊆ envVars := fun _ h => h
  rw [configLoadFromFile, configLoadFromFile, foldl_loadLine_append (newline_notMem_envLines hc),
    configLoadFromEnv, configLoadFromEnv, foldl_ifSet hc hsub, foldl_loadLine_ifSet hsub]
  rfl

/-- `REPROVM_JOBS=8 REPROVM_NO_COLOR=1`. -/
def jobsEnv (name : Bytes) : Option Bytes :=
  if name = ascii "REPROVM_JOBS" then some (ascii "8")
  else if name = ascii "REPROVM_NO_COLOR" then some (ascii "1")
  else none

/-- A file that says two jobs: the eight of the environment count. -/
theorem env_as_lines_jobs :
    configLoadFromEnv jobsEnv
        (configLoadFromFile (configInitDefaults 4) (some (ascii "parallel_jobs=2"))).1
      = (configLoadFromFile { configInitDefaults 4 with logColors := 0, enableColors := 0 }
          (some (ascii "parallel_jobs=2\nparallel_jobs=8\n"))).1 := by
  have hc : Carried jobsEnv := by
    intro name env _ henv
    have hvalue : env = ascii "8" ∨ env = ascii "1" := by
      simp only [jobsEnv] at henv
      split_ifs at henv with hjobs hcolor
      · exact .inl (Option.some.inj henv).symm
      · exact .inr (Option.some.inj henv).symm
    rcases hvalue with rfl | rfl
    · exact ⟨⟨⟨by decide, by decide, Bytes.tight_of_forall (by decide)⟩, by decide⟩, by decide⟩
    · exact ⟨⟨⟨by decide, by decide, Bytes.tight_of_forall (by decide)⟩, by decide⟩, by decide⟩
  have hlines : ascii "parallel_jobs=2" ++ 10 :: (envLines jobsEnv).flatMap (· ++ [10])
      = ascii "parallel_jobs=2\nparallel_jobs=8\n" := by decide +kernel
  have hkeyless : configLoadFromEnv (keyless jobsEnv) (configInitDefaults 4)
      = { configInitDefaults 4 with logColors := 0, enableColors := 0 } := by decide +kernel
  rw [env_as_lines hc, hlines, hkeyless]

end ReproVM
