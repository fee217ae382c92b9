/-
# Saving a configuration and loading it

The writer and the reader of `config.c` have a list of keys each.  Every line that
`config_save_to_file` writes for a key of the reader's list is read back as the value it was
written for (`lineEffect_setting`): numbers through `%d` and `atoi`, the level through its padded
name, strings because nothing in them is cut or trimmed.  The one key the reader does not know is
`max_cache_size_mb`, so a configuration comes back exactly when that field has its default
(`save_load_iff`).
-/
import ReproVM.ConfigComments
import ReproVM.Lib.Decimal

namespace ReproVM

open Bytes (ascii unpieces decimal decimalInt isDigit)

/-! ## 1. The writer -/

/-- `log_level_name`. -/
def logLevelName : LogLevel → Bytes
  | .debug => ascii "DEBUG"
  | .info => ascii "INFO "
  | .warn => ascii "WARN "
  | .error => ascii "ERROR"
  | .fatal => ascii "FATAL"

/-- `%d`. -/
def printInt (n : Int32) : Bytes := decimalInt n.toInt

/-- The lines that are written, each with a newline after it. -/
def configSaveLines (config : ReproVMConfig) : List Bytes :=
  [ascii "# ReproVM Configuration File",
    ascii "# Generated automatically",
    [],
    ascii "# Logging",
    ascii "log_file=" ++ config.logFile.bytes,
    ascii "log_level=" ++ logLevelName config.logLevel,
    [],
    ascii "# Cache",
    ascii "cache_dir=" ++ config.cacheDir.bytes,
    ascii "max_cache_size_mb=" ++ printInt config.maxCacheSizeMb,
    [],
    ascii "# Execution",
    ascii "parallel_jobs=" ++ printInt config.parallelJobs,
    ascii "retry_attempts=" ++ printInt config.retryAttempts,
    ascii "timeout_seconds=" ++ printInt config.timeoutSeconds,
    [],
    ascii "# Performance",
    ascii "enable_metrics=" ++ printInt config.enableMetrics] ++
  if config.enableRemoteCas ≠ 0 then
    [[], ascii "# Remote CAS", ascii "remote_cas_url=" ++ config.remoteCasUrl.bytes]
  else []

/-- What is in the file after `config_save_to_file`. -/
def configSaveToFile (config : ReproVMConfig) : Bytes :=
  (configSaveLines config).flatMap (· ++ [10])

/-- `none` for 0, else the text of the error. -/
def configValidate (config : ReproVMConfig) : Option Bytes :=
  if config.parallelJobs < 1 ∨ 256 < config.parallelJobs then
    some (ascii "Error: parallel_jobs must be between 1 and 256\n")
  else if config.retryAttempts < 0 ∨ 100 < config.retryAttempts then
    some (ascii "Error: retry_attempts must be between 0 and 100\n")
  else if config.timeoutSeconds < 0 then
    some (ascii "Error: timeout_seconds cannot be negative\n")
  else if config.maxCacheSizeMb < 0 then
    some (ascii "Error: max_cache_size_mb cannot be negative\n")
  else none

/-! ## 2. Numbers -/

theorem takeWhile_decimal (n : Nat) :
    (decimal n).takeWhile (fun c => 48 ≤ c && c ≤ 57) = decimal n :=
  List.takeWhile_eq_self_iff.mpr fun _ hc => Bytes.isDigit_of_mem_decimal hc

theorem atoi_decimalInt (x : Int) : atoi (decimalInt x) = x := by
  have hvalue := Bytes.digitsValue_decimal x.natAbs
  unfold Bytes.digitsValue at hvalue
  unfold atoi
  by_cases hneg : x < 0
  · rw [decimalInt, if_pos hneg, List.dropWhile_cons_of_neg (by decide)]
    change -((((decimal x.natAbs).takeWhile _).foldl _ 0 : Nat) : Int) = x
    rw [takeWhile_decimal, hvalue]
    omega
  · rw [decimalInt, if_neg hneg]
    obtain ⟨c, s, hs⟩ := List.exists_cons_of_ne_nil (Bytes.decimal_ne_nil x.natAbs)
    obtain ⟨hspace, hminus, hplus⟩ :=
      not_isspace_of_isDigit (Bytes.isDigit_of_mem_decimal (hs ▸ List.mem_cons_self))
    rw [hs, List.dropWhile_cons_of_neg hspace]
    split
    case h_1 heq => exact absurd (List.cons.inj heq).1 hminus
    case h_2 heq => exact absurd (List.cons.inj heq).1 hplus
    case h_3 =>
      rw [← hs]
      change ((((decimal x.natAbs).takeWhile _).foldl _ 0 : Nat) : Int) = x
      rw [takeWhile_decimal, hvalue]
      omega

theorem ofInt_atoi_printInt (n : Int32) : Int32.ofInt (atoi (printInt n)) = n := by
  rw [printInt, atoi_decimalInt, Int32.ofInt_toInt]

/-! ## 3. One setting -/

/-- A value that survives: not empty, without newlines, and without spaces at its ends. -/
structure Writable (v : Bytes) : Prop where
  ne_nil : v ≠ []
  noNewline : 10 ∉ v
  tight : Bytes.Tight isGap v

structure Plain (v : Bytes) : Prop extends Writable v where
  noNul : 0 ∉ v

section Setting

variable {config : ReproVMConfig} {k v : Bytes}

theorem trimEnd_of_last {p : UInt8 → Bool} (h : ∀ c ∈ v.getLast?, ¬ p c) : trimEnd p v = v := by
  cases v with
  | nil => rfl
  | cons c s =>
    rcases eq_or_ne s [] with rfl | hne
    · rfl
    · have hlast : (c :: s).getLast? = s.getLast? := List.getLast?_append_of_ne_nil [c] hne
      rw [trimEnd, Bytes.rdropWhile_of_last (hlast ▸ h)]

structure Key (k : Bytes) : Prop extends Plain k where
  noEquals : 61 ∉ k
  noHash : k.head? ≠ some 35
  short : k.length ≤ 255

/-- The trimming on both sides finds nothing. -/
theorem Plain.trim (h : Plain v) :
    trimEnd isGap (v.dropWhile isGap) = v ∧
      trimEnd (fun c => isGap c || c = 10) (v.dropWhile isGap) = v := by
  rw [Bytes.dropWhile_of_head h.tight.head]
  refine ⟨trimEnd_of_last h.tight.last, trimEnd_of_last fun c hc => ?_⟩
  have hne : c ≠ 10 := fun heq => h.noNewline (heq ▸ List.mem_of_getLast? hc)
  simpa [hne] using h.tight.last c hc

theorem configLine_setting (hk : Key k) (hv : Plain v) (hlen : v.length ≤ 511) :
    configLine (k ++ 61 :: v) = some (k, v) := by
  obtain ⟨c, t, hct⟩ := List.exists_cons_of_ne_nil hk.ne_nil
  have hcstr : cstr (k ++ 61 :: v) = k ++ 61 :: v :=
    cstr_of_notMem (by simp [hk.noNul, hv.noNul])
  have hgap : ¬ isGap c := hk.tight.head c (by rw [hct]; rfl)
  have hfront : (k ++ 61 :: v).dropWhile isGap = k ++ 61 :: v := by
    rw [hct, List.cons_append, List.dropWhile_cons_of_neg hgap]
  have hnewline : c ≠ 10 := fun h => hk.noNewline (hct ▸ h ▸ List.mem_cons_self)
  have hhash : c ≠ 35 := fun h => hk.noHash (by rw [hct, h]; rfl)
  have hall : ∀ c ∈ v, decide (c ≠ 10) = true :=
    fun _ hc => decide_eq_true fun h => hv.noNewline (h ▸ hc)
  have hvalue : (v.takeWhile (· ≠ 10)).take 511 = v := by
    rw [List.takeWhile_eq_self_iff.mpr hall, List.take_of_length_le hlen]
  have hscan : scanSetting (k ++ 61 :: v) = some (k, v) := by
    rw [scanSetting_split hk.noEquals, hvalue, if_neg]
    simp [hk.ne_nil, hv.ne_nil, hk.short]
  rw [configLine, hcstr, hfront, hscan, if_neg (by simp [hct, hhash, hnewline]), Option.map_some,
    hk.trim.1, hv.trim.2]

/-- **A line of the writer** is the setting it says. -/
theorem lineEffect_setting (hk : Key k) (hv : Plain v) (hlen : v.length ≤ 511) :
    lineEffect config (k ++ 61 :: v) = applySetting config k v := by
  have hpieces : fgetsAll (k ++ 61 :: v) = [k ++ 61 :: v] := by
    refine fgetsPieces_short (by simp [hk.noNewline, hv.noNewline]) (by simp) ?_
    have := hk.short
    rw [List.length_append, List.length_cons]
    omega
  rw [lineEffect, hpieces, List.foldl_cons, List.foldl_nil, loadLine, configLine_setting hk hv hlen]

theorem key_of_mem : ∀ k ∈ ascii "max_cache_size_mb" :: configKeys, Key k := by
  have h : ∀ k ∈ ascii "max_cache_size_mb" :: configKeys, k ≠ [] ∧ 10 ∉ k ∧
      (∀ c ∈ k, ¬ isGap c = true) ∧ 0 ∉ k ∧ 61 ∉ k ∧ k.head? ≠ some 35 ∧ k.length ≤ 255 := by
    decide
  intro k hk
  obtain ⟨h1, h2, h3, h4, h5, h6, h7⟩ := h k hk
  exact ⟨⟨⟨h1, h2, Bytes.tight_of_forall h3⟩, h4⟩, h5, h6, h7⟩

theorem Writable.plain {size : Nat} {s : CString size} (h : Writable s.bytes) : Plain s.bytes :=
  ⟨h, s.noNul⟩

/-- What `%d` writes. -/
theorem plain_printInt (n : Int32) : Plain (printInt n) ∧ (printInt n).length ≤ 511 := by
  have hlen : (decimal n.toInt.natAbs).length ≤ 10 := by
    refine Bytes.length_decimal_le (by decide) ?_
    have := n.toInt_lt
    have := n.le_toInt
    omega
  have hbytes : ∀ c ∈ printInt n, c ≠ 0 ∧ c ≠ 10 ∧ ¬ isGap c = true := by
    intro c hc
    have hc' : c = 45 ∨ isDigit c := by
      rw [printInt, decimalInt] at hc
      split at hc
      · exact (List.mem_cons.mp hc).imp_right Bytes.isDigit_of_mem_decimal
      · exact .inr (Bytes.isDigit_of_mem_decimal hc)
    rcases hc' with rfl | hdigit
    · decide
    · refine ⟨?_, ?_, fun hgap => (not_isspace_of_isDigit hdigit).1 ?_⟩
      · rintro rfl
        exact absurd hdigit (by decide)
      · rintro rfl
        exact absurd hdigit (by decide)
      · simp only [isGap, isspace, Bool.or_eq_true, decide_eq_true_eq] at hgap ⊢
        rcases hgap with rfl | rfl
        · exact .inl rfl
        · exact .inr (by decide)
  have hne : printInt n ≠ [] := by
    rw [printInt, decimalInt]
    split
    · simp
    · exact Bytes.decimal_ne_nil _
  refine ⟨⟨⟨hne, fun h => (hbytes 10 h).2.1 rfl,
    Bytes.tight_of_forall fun c hc => (hbytes c hc).2.2⟩, fun h => (hbytes 0 h).1 rfl⟩, ?_⟩
  rw [printInt, decimalInt]
  split
  · rw [List.length_cons]
    omega
  · omega

/-- A line for a string, and one for a number; `text` is the key with the `=`. -/
theorem lineEffect_string {text : Bytes} {size : Nat} {s : CString size}
    (hk : k ∈ ascii "max_cache_size_mb" :: configKeys) (htext : text = k ++ [61])
    (hs : Writable s.bytes) (hsize : size ≤ 512) :
    lineEffect config (text ++ s.bytes) = applySetting config k s.bytes := by
  rw [htext, List.append_assoc, List.singleton_append]
  exact lineEffect_setting (key_of_mem k hk) hs.plain
    (Nat.le_of_lt_succ (Nat.lt_of_lt_of_le s.lt hsize))

theorem lineEffect_int {text : Bytes} (hk : k ∈ ascii "max_cache_size_mb" :: configKeys)
    (htext : text = k ++ [61]) (n : Int32) :
    lineEffect config (text ++ printInt n) = applySetting config k (printInt n) := by
  rw [htext, List.append_assoc, List.singleton_append]
  exact lineEffect_setting (key_of_mem k hk) (plain_printInt n).1 (plain_printInt n).2

/-- The padding of a level's name is trimmed away. -/
theorem lineEffect_level {l : LogLevel} (hl : l ≠ .fatal) :
    lineEffect config (ascii "log_level=" ++ logLevelName l) = { config with logLevel := l } := by
  have hread : ∀ name, configLine (ascii "log_level=" ++ logLevelName l)
        = some (ascii "log_level", name) →
      lineEffect config (ascii "log_level=" ++ logLevelName l)
        = applySetting config (ascii "log_level") name := by
    intro name hname
    rw [lineEffect, fgetsAll, fgetsPieces_short (by cases l <;> decide) (by simp [ascii])
      (by cases l <;> decide), List.foldl_cons, List.foldl_nil, loadLine, hname]
  cases l with
  | debug => exact hread (ascii "DEBUG") (by decide)
  | info => exact hread (ascii "INFO") (by decide)
  | warn => exact hread (ascii "WARN") (by decide)
  | error => exact hread (ascii "ERROR") (by decide)
  | fatal => exact absurd rfl hl

theorem CString.copy_bytes {size : Nat} [NeZero size] (s : CString size) : .copy s.bytes = s := by
  have hbytes : (cstr s.bytes).take (size - 1) = s.bytes := by
    rw [cstr_of_notMem s.noNul, List.take_of_length_le (Nat.le_sub_one_of_lt s.lt)]
  cases s
  simp only [CString.copy, CString.mk.injEq]
  exact hbytes

end Setting

/-! ## 4. The whole file -/

/-- What is asked of a configuration: it is valid, its level has a name of its own, and the
strings that are written are writable. -/
structure Savable (config : ReproVMConfig) : Prop where
  valid : configValidate config = none
  level : config.logLevel ≠ .fatal
  logFile : Writable config.logFile.bytes
  cacheDir : Writable config.cacheDir.bytes
  remoteCasUrl : config.enableRemoteCas ≠ 0 → Writable config.remoteCasUrl.bytes

/-- Equal in every field that `config_save_to_file` writes. -/
structure SameWritten (config config' : ReproVMConfig) : Prop where
  logFile : config'.logFile = config.logFile
  logLevel : config'.logLevel = config.logLevel
  cacheDir : config'.cacheDir = config.cacheDir
  maxCacheSizeMb : config'.maxCacheSizeMb = config.maxCacheSizeMb
  parallelJobs : config'.parallelJobs = config.parallelJobs
  retryAttempts : config'.retryAttempts = config.retryAttempts
  timeoutSeconds : config'.timeoutSeconds = config.timeoutSeconds
  enableMetrics : config'.enableMetrics = config.enableMetrics
  remoteCasUrl : config.enableRemoteCas ≠ 0 → config'.remoteCasUrl = config.remoteCasUrl

section Whole

variable {config : ReproVMConfig}

theorem newline_notMem_configSaveLines (hc : Savable config) :
    ∀ l ∈ configSaveLines config ++ [[]], 10 ∉ l := by
  have hset : ∀ k v : Bytes, 10 ∉ k → 10 ∉ v → 10 ∉ k ++ v := fun k v hk hv => by simp [hk, hv]
  have hint : ∀ (k : Bytes) (n : Int32), 10 ∉ k → 10 ∉ k ++ printInt n :=
    fun k n hk => hset k _ hk (plain_printInt n).1.noNewline
  have hlevel : 10 ∉ logLevelName config.logLevel := by cases config.logLevel <;> decide
  simp only [configSaveLines, List.forall_mem_append, List.forall_mem_cons, List.not_mem_nil,
    IsEmpty.forall_iff, implies_true, and_true]
  refine ⟨⟨⟨by decide, by decide, by decide, by decide,
    hset _ _ (by decide) hc.logFile.noNewline, hset _ _ (by decide) hlevel, by decide, by decide,
    hset _ _ (by decide) hc.cacheDir.noNewline, hint _ _ (by decide), by decide, by decide,
    hint _ _ (by decide), hint _ _ (by decide), hint _ _ (by decide), by decide, by decide,
    hint _ _ (by decide)⟩, ?_⟩, by decide⟩
  split
  case isTrue hon =>
    simp only [List.forall_mem_cons, List.not_mem_nil, IsEmpty.forall_iff, implies_true, and_true]
    exact ⟨by decide, by decide, hset _ _ (by decide) (hc.remoteCasUrl hon).noNewline⟩
  case isFalse => simp

/-- The lines of a file, by the function that each of them is on configurations. -/
theorem foldl_lineEffect {lines : List Bytes} {fs : List (ReproVMConfig → ReproVMConfig)}
    (h : List.Forall₂ (fun l f => ∀ c, lineEffect c l = f c) lines fs) (config : ReproVMConfig) :
    lines.foldl lineEffect config = fs.foldl (fun c f => f c) config := by
  induction h generalizing config with
  | nil => rfl
  | cons hl _ ih => rw [List.foldl_cons, List.foldl_cons, hl, ih]

/-- **What a saved file does** to the configuration it is loaded into. -/
theorem load_saved (hc : Savable config) (into : ReproVMConfig) :
    configLoadFromFile into (some (configSaveToFile config)) =
      ({ into with
        logFile := config.logFile
        logLevel := config.logLevel
        cacheDir := config.cacheDir
        parallelJobs := config.parallelJobs
        retryAttempts := config.retryAttempts
        timeoutSeconds := config.timeoutSeconds
        enableMetrics := config.enableMetrics
        remoteCasUrl :=
          if config.enableRemoteCas ≠ 0 then config.remoteCasUrl else into.remoteCasUrl
        enableRemoteCas := if config.enableRemoteCas ≠ 0 then 1 else into.enableRemoteCas }, 0) := by
  have hnote : ∀ line, IsComment line ∧ 10 ∉ line ∧ line.length ≤ 1023 →
      ∀ c, lineEffect c line = id c := fun line h =>
    lineEffect_id_iff.mpr (harmless_of_short h.1 h.2.1 h.2.2)
  have hlogFile : ∀ c, lineEffect c (ascii "log_file=" ++ config.logFile.bytes)
      = { c with logFile := config.logFile } := fun c => by
    rw [lineEffect_string (k := ascii "log_file") (by decide) (by decide) hc.logFile (by decide)]
    exact congrArg (fun s => { c with logFile := s }) config.logFile.copy_bytes
  have hcacheDir : ∀ c, lineEffect c (ascii "cache_dir=" ++ config.cacheDir.bytes)
      = { c with cacheDir := config.cacheDir } := fun c => by
    rw [lineEffect_string (k := ascii "cache_dir") (by decide) (by decide) hc.cacheDir (by decide)]
    exact congrArg (fun s => { c with cacheDir := s }) config.cacheDir.copy_bytes
  have hcacheSize : ∀ c, lineEffect c (ascii "max_cache_size_mb=" ++ printInt config.maxCacheSizeMb)
      = id c := fun c => by
    -- the reader has no such key
    rw [lineEffect_int (k := ascii "max_cache_size_mb") (by decide) (by decide)]
    exact applySetting_of_unknown fun h => absurd h.1 (by decide)
  have hjobs : ∀ c, lineEffect c (ascii "parallel_jobs=" ++ printInt config.parallelJobs)
      = { c with parallelJobs := config.parallelJobs } := fun c => by
    rw [lineEffect_int (k := ascii "parallel_jobs") (by decide) (by decide)]
    exact congrArg (fun n => { c with parallelJobs := n }) (ofInt_atoi_printInt _)
  have hretry : ∀ c, lineEffect c (ascii "retry_attempts=" ++ printInt config.retryAttempts)
      = { c with retryAttempts := config.retryAttempts } := fun c => by
    rw [lineEffect_int (k := ascii "retry_attempts") (by decide) (by decide)]
    exact congrArg (fun n => { c with retryAttempts := n }) (ofInt_atoi_printInt _)
  have htimeout : ∀ c, lineEffect c (ascii "timeout_seconds=" ++ printInt config.timeoutSeconds)
      = { c with timeoutSeconds := config.timeoutSeconds } := fun c => by
    rw [lineEffect_int (k := ascii "timeout_seconds") (by decide) (by decide)]
    exact congrArg (fun n => { c with timeoutSeconds := n }) (ofInt_atoi_printInt _)
  have hmetrics : ∀ c, lineEffect c (ascii "enable_metrics=" ++ printInt config.enableMetrics)
      = { c with enableMetrics := config.enableMetrics } := fun c => by
    rw [lineEffect_int (k := ascii "enable_metrics") (by decide) (by decide)]
    exact congrArg (fun n => { c with enableMetrics := n }) (ofInt_atoi_printInt _)
  rw [configSaveToFile, Bytes.flatMap_sep,
    configLoadFromFile_unpieces (newline_notMem_configSaveLines hc), configSaveLines,
    List.foldl_append, List.foldl_append, foldl_lineEffect (.cons (hnote _ (by decide)) <|
      .cons (hnote _ (by decide)) <| .cons (hnote _ (by decide)) <| .cons (hnote _ (by decide)) <|
      .cons hlogFile <| .cons (fun _ => lineEffect_level hc.level) <|
      .cons (hnote _ (by decide)) <| .cons (hnote _ (by decide)) <| .cons hcacheDir <|
      .cons hcacheSize <| .cons (hnote _ (by decide)) <| .cons (hnote _ (by decide)) <|
      .cons hjobs <| .cons hretry <| .cons htimeout <| .cons (hnote _ (by decide)) <|
      .cons (hnote _ (by decide)) <| .cons hmetrics .nil),
    foldl_lineEffect (.cons (hnote [] (by decide)) .nil)]
  by_cases hon : config.enableRemoteCas ≠ 0
  · have hurl : ∀ c, lineEffect c (ascii "remote_cas_url=" ++ config.remoteCasUrl.bytes)
        = { c with remoteCasUrl := config.remoteCasUrl, enableRemoteCas := 1 } := fun c => by
      rw [lineEffect_string (k := ascii "remote_cas_url") (by decide) (by decide)
        (hc.remoteCasUrl hon) (by decide)]
      exact congrArg (fun s => { c with remoteCasUrl := s, enableRemoteCas := 1 })
        config.remoteCasUrl.copy_bytes
    rw [if_pos hon, if_pos hon, if_pos hon, foldl_lineEffect (.cons (hnote _ (by decide)) <|
      .cons (hnote _ (by decide)) <| .cons hurl .nil)]
    rfl
  · rw [if_neg hon, if_neg hon, if_neg hon]
    rfl

end Whole

/-- **The round trip**: a saved configuration comes back in every field that was written, iff its
`max_cache_size_mb` is the default. -/
theorem save_load_iff {config : ReproVMConfig} (hc : Savable config) (processors : Int32) :
    SameWritten config (configLoadFromFile (configInitDefaults processors)
      (some (configSaveToFile config))).1 ↔ config.maxCacheSizeMb = 10240 := by
  rw [load_saved hc]
  constructor
  · exact fun h => h.maxCacheSizeMb.symm
  · exact fun h => ⟨rfl, rfl, rfl, h.symm, rfl, rfl, rfl, rfl, fun hon => if_pos hon⟩

/-- The defaults, with another size of the cache. -/
def withCacheSize (size : Int32) : ReproVMConfig :=
  { configInitDefaults 4 with maxCacheSizeMb := size }

theorem savable_withCacheSize {size : Int32} (hsize : configValidate (withCacheSize size) = none) :
    Savable (withCacheSize size) where
  valid := hsize
  level := (by decide : LogLevel.info ≠ .fatal)
  logFile := (⟨by decide, by decide, Bytes.tight_of_forall (by decide)⟩ :
    Writable (configInitDefaults 4).logFile.bytes)
  cacheDir := (⟨by decide, by decide, Bytes.tight_of_forall (by decide)⟩ :
    Writable (configInitDefaults 4).cacheDir.bytes)
  remoteCasUrl h := absurd rfl h

/-- The defaults come back. -/
theorem save_load_defaults :
    SameWritten (withCacheSize 10240) (configLoadFromFile (configInitDefaults 4)
      (some (configSaveToFile (withCacheSize 10240)))).1 :=
  (save_load_iff (savable_withCacheSize (by decide)) 4).mpr rfl

/-- A cache of one megabyte comes back as one of ten gigabytes. -/
theorem save_load_cache_size :
    Savable (withCacheSize 1) ∧ (withCacheSize 1).maxCacheSizeMb = 1 ∧
      (configLoadFromFile (configInitDefaults 4)
        (some (configSaveToFile (withCacheSize 1)))).1.maxCacheSizeMb = 10240 := by
  refine ⟨savable_withCacheSize (by decide), rfl, ?_⟩
  rw [load_saved (savable_withCacheSize (by decide))]
  rfl

end ReproVM
