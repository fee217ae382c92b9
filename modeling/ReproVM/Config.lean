/-
# Configuration files: `config.c`

`config_load_from_file` does not read lines: it reads pieces of at most 1023 bytes, and each piece
is skipped, or taken for a setting, by itself.  A newline at the end of a piece makes no
difference (`configLine_newline`), so a file acts on the configuration line by line, each line by
its pieces (`foldl_fgets_unpieces`).
-/
import ReproVM.Util

namespace ReproVM

open Bytes (ascii unpieces)

/-! ## 1. The configuration -/

inductive LogLevel
  | debug
  | info
  | warn
  | error
  | fatal
deriving DecidableEq

/-- What is in a `char[size]` that holds a string. -/
structure CString (size : Nat) where
  bytes : Bytes
  lt : bytes.length < size
  noNul : 0 ∉ bytes
deriving DecidableEq

theorem notMem_cstr (s : Bytes) : 0 ∉ cstr s := fun h => by
  simpa using List.mem_takeWhile_imp h

/-- `strncpy(dest, v, size - 1)`, where the last byte of `dest` is a NUL. -/
def CString.copy {size : Nat} [NeZero size] (v : Bytes) : CString size where
  bytes := (cstr v).take (size - 1)
  lt := by
    have := NeZero.pos size
    rw [List.length_take]
    omega
  noNul h := notMem_cstr v (List.mem_of_mem_take h)

structure ReproVMConfig where
  logFile : CString 256
  logLevel : LogLevel
  logColors : Int32
  cacheDir : CString 256
  maxCacheSizeMb : Int32
  cacheTtlHours : Int32
  parallelJobs : Int32
  retryAttempts : Int32
  retryDelayMs : Int32
  timeoutSeconds : Int32
  enableMetrics : Int32
  metricsIntervalSeconds : Int32
  metricsFile : CString 256
  enableSandboxing : Int32
  maxInputSizeMb : Int32
  validateChecksums : Int32
  enableRemoteCas : Int32
  remoteCasUrl : CString 512
  remoteCasAccessKey : CString 256
  remoteCasSecretKey : CString 256
  enableColors : Int32
  enableProgressBar : Int32
  verbose : Int32
  forceRebuild : Int32
deriving DecidableEq

/-- `processors` is `(int)sysconf(_SC_NPROCESSORS_ONLN)`. -/
def configInitDefaults (processors : Int32) : ReproVMConfig where
  logFile := .copy (ascii ".reprovm/reprovm.log")
  logLevel := .info
  logColors := 1
  cacheDir := .copy (ascii ".reprovm")
  maxCacheSizeMb := 10240
  cacheTtlHours := 168
  parallelJobs := if processors ≤ 0 then 4 else processors
  retryAttempts := 3
  retryDelayMs := 1000
  timeoutSeconds := 3600
  enableMetrics := 1
  metricsIntervalSeconds := 60
  metricsFile := .copy (ascii ".reprovm/metrics.log")
  enableSandboxing := 0
  maxInputSizeMb := 1024
  validateChecksums := 1
  enableRemoteCas := 0
  remoteCasUrl := .copy []
  remoteCasAccessKey := .copy []
  remoteCasSecretKey := .copy []
  enableColors := 1
  enableProgressBar := 1
  verbose := 0
  forceRebuild := 0

/-! ## 2. `config_load_from_file` -/

/-- A space or a tab. -/
def isGap (c : UInt8) : Bool := c = 32 || c = 9

/-- `while (e > s && p(*e)) *e-- = '\0'` from the end: the first byte stays. -/
def trimEnd (p : UInt8 → Bool) : Bytes → Bytes
  | [] => []
  | c :: s => c :: s.rdropWhile p

/-- The two strings of `sscanf(line, "%255[^=]=%511[^\n]", key, value)` when both are read. -/
def scanSetting (line : Bytes) : Option (Bytes × Bytes) :=
  let key := (line.takeWhile (· ≠ 61)).take 255
  if key = [] then none
  else
    match line.drop key.length with
    | 61 :: rest =>
      let value := (rest.takeWhile (· ≠ 10)).take 511
      if value = [] then none else some (key, value)
    | _ => none

/-- The key and the value of a piece, with the spaces around them gone; `none` for the pieces
that are skipped. -/
def configLine (line : Bytes) : Option (Bytes × Bytes) :=
  let line := cstr line
  let p := line.dropWhile isGap
  if p.head? = some 35 ∨ p.head? = some 10 ∨ p = [] then none
  else
    (scanSetting line).map fun kv =>
      (trimEnd isGap (kv.1.dropWhile isGap),
        trimEnd (fun c => isGap c || c = 10) (kv.2.dropWhile isGap))

def applySetting (config : ReproVMConfig) (k v : Bytes) : ReproVMConfig :=
  if k = ascii "log_file" then { config with logFile := .copy v }
  else if k = ascii "log_level" then
    if v = ascii "DEBUG" then { config with logLevel := .debug }
    else if v = ascii "INFO" then { config with logLevel := .info }
    else if v = ascii "WARN" then { config with logLevel := .warn }
    else if v = ascii "ERROR" then { config with logLevel := .error }
    else config
  else if k = ascii "cache_dir" then { config with cacheDir := .copy v }
  else if k = ascii "parallel_jobs" then { config with parallelJobs := .ofInt (atoi v) }
  else if k = ascii "retry_attempts" then { config with retryAttempts := .ofInt (atoi v) }
  else if k = ascii "timeout_seconds" then { config with timeoutSeconds := .ofInt (atoi v) }
  else if k = ascii "enable_metrics" then { config with enableMetrics := .ofInt (atoi v) }
  else if k = ascii "remote_cas_url" then
    { config with remoteCasUrl := .copy v, enableRemoteCas := 1 }
  else config

def loadLine (config : ReproVMConfig) (line : Bytes) : ReproVMConfig :=
  match configLine line with
  | none => config
  | some kv => applySetting config kv.1 kv.2

/-- The pieces that a loop of `fgets(line, size, fp)` reads; `room` is what still goes into the
buffer. -/
def fgetsPieces (size : Nat) : Nat → Bytes → List Bytes
  | _, [] => []
  | room, c :: s =>
    if c = 10 ∨ room ≤ 1 then [c] :: fgetsPieces size (size - 1) s
    else
      match fgetsPieces size (room - 1) s with
      | [] => [[c]]
      | piece :: rest => (c :: piece) :: rest

/-- With `char line[1024]`. -/
def fgetsAll (content : Bytes) : List Bytes := fgetsPieces 1024 1023 content

/-- The configuration afterwards and the return value; `none` is that `fopen` fails. -/
def configLoadFromFile (config : ReproVMConfig) : Option Bytes → ReproVMConfig × Int
  | none => (config, -1)
  | some content => ((fgetsAll content).foldl loadLine config, 0)

/-! ## 3. Pieces and lines -/

section Pieces

variable {size room : Nat} {s l rest p : Bytes}

theorem fgetsPieces_ne_nil (hs : s ≠ []) : fgetsPieces size room s ≠ [] := by
  cases s with
  | nil => exact absurd rfl hs
  | cons c s =>
    rw [fgetsPieces]
    split
    · simp
    · split <;> simp

theorem fgetsPieces_flatten (size room : Nat) (s : Bytes) :
    (fgetsPieces size room s).flatten = s := by
  induction s generalizing room with
  | nil => rfl
  | cons c s ih =>
    rw [fgetsPieces]
    split
    · rw [List.flatten_cons, ih]
      rfl
    · have h := @ih (room - 1)
      split
      case h_1 heq =>
        rw [heq] at h
        rw [← h]
        rfl
      case h_2 piece rest heq =>
        rw [heq] at h
        rw [← h]
        rfl

theorem notMem_of_mem_fgetsPieces {c : UInt8} (hs : c ∉ s) (hp : p ∈ fgetsPieces size room s) :
    c ∉ p := fun hc =>
  hs (fgetsPieces_flatten size room s ▸ List.mem_flatten_of_mem hp hc)

/-- A newline ends a piece, so the file can be read from one line to the next. -/
theorem fgetsPieces_append_newline (l rest : Bytes) :
    fgetsPieces size room (l ++ 10 :: rest) =
      fgetsPieces size room (l ++ [10]) ++ fgetsPieces size (size - 1) rest := by
  induction l generalizing room with
  | nil => simp [fgetsPieces]
  | cons c l ih =>
    rw [List.cons_append, List.cons_append, fgetsPieces, fgetsPieces]
    split
    · rw [ih, List.cons_append]
    · rw [ih]
      have hne : fgetsPieces size (room - 1) (l ++ [10]) ≠ [] := fgetsPieces_ne_nil (by simp)
      obtain ⟨piece, pieces, hp⟩ := List.exists_cons_of_ne_nil hne
      rw [hp]
      rfl

/-- A line that fits is one piece. -/
theorem fgetsPieces_short (hl : 10 ∉ l) (hne : l ≠ []) (hlen : l.length ≤ room) :
    fgetsPieces size room l = [l] := by
  induction l generalizing room with
  | nil => exact absurd rfl hne
  | cons c l ih =>
    have hc : c ≠ 10 := fun h => hl (h ▸ List.mem_cons_self)
    rw [List.length_cons] at hlen
    rw [fgetsPieces]
    rcases eq_or_ne l [] with rfl | hl'
    · split <;> rfl
    · have hpos := List.length_pos_of_ne_nil hl'
      rw [if_neg (not_or.mpr ⟨hc, by omega⟩),
        ih (fun h => hl (List.mem_cons_of_mem _ h)) hl' (by omega)]

/-- The newline goes to the last piece, or it is a piece of its own. -/
theorem fgetsPieces_newline (hl : 10 ∉ l) (hne : l ≠ []) :
    ∃ init last, fgetsPieces size room l = init ++ [last] ∧
      (fgetsPieces size room (l ++ [10]) = init ++ [last ++ [10]] ∨
        fgetsPieces size room (l ++ [10]) = init ++ [last] ++ [[10]]) := by
  induction l generalizing room with
  | nil => exact absurd rfl hne
  | cons c l ih =>
    have hc : c ≠ 10 := fun h => hl (h ▸ List.mem_cons_self)
    rw [List.cons_append, fgetsPieces, fgetsPieces]
    rcases eq_or_ne l [] with rfl | hl'
    · by_cases hroom : room ≤ 1
      · exact ⟨[], [c], by simp [fgetsPieces, hroom], .inr (by simp [fgetsPieces, hroom])⟩
      · exact ⟨[], [c], by simp [fgetsPieces, hroom], .inl (by simp [fgetsPieces, hroom, hc])⟩
    · have hrec := fun room' => @ih room' (fun h => hl (List.mem_cons_of_mem _ h)) hl'
      by_cases hroom : room ≤ 1
      · obtain ⟨init, last, h1, h2⟩ := hrec (size - 1)
        rw [if_pos (.inr hroom), if_pos (.inr hroom), h1]
        refine ⟨[c] :: init, last, rfl, ?_⟩
        rcases h2 with h2 | h2
        · exact .inl (by rw [h2]; rfl)
        · exact .inr (by rw [h2]; rfl)
      · obtain ⟨init, last, h1, h2⟩ := hrec (room - 1)
        rw [if_neg (by simp [hc, hroom]), if_neg (by simp [hc, hroom]), h1]
        cases init with
        | nil =>
          refine ⟨[], c :: last, rfl, ?_⟩
          rcases h2 with h2 | h2
          · exact .inl (by rw [h2]; rfl)
          · exact .inr (by rw [h2]; rfl)
        | cons piece init =>
          refine ⟨(c :: piece) :: init, last, rfl, ?_⟩
          rcases h2 with h2 | h2
          · exact .inl (by rw [h2]; rfl)
          · exact .inr (by rw [h2]; rfl)

end Pieces

/-! ## 4. What a line does -/

section Lines

variable {config : ReproVMConfig} {line p : Bytes}

/-- A line without its newline, as its pieces act on the configuration. -/
def lineEffect (config : ReproVMConfig) (line : Bytes) : ReproVMConfig :=
  (fgetsAll line).foldl loadLine config

theorem scanSetting_split {k r : Bytes} (hk : 61 ∉ k) :
    scanSetting (k ++ 61 :: r) =
      if k = [] ∨ 255 < k.length ∨ (r.takeWhile (· ≠ 10)).take 511 = [] then none
      else some (k, (r.takeWhile (· ≠ 10)).take 511) := by
  have hall : ∀ c ∈ k, decide (c ≠ 61) = true := fun _ hc => decide_eq_true fun h => hk (h ▸ hc)
  have hkey : (k ++ 61 :: r).takeWhile (· ≠ 61) = k := by
    rw [List.takeWhile_append_of_pos hall]
    simp
  rw [scanSetting, hkey]
  dsimp only
  rcases eq_or_ne k [] with rfl | hne
  · rfl
  rcases Nat.lt_or_ge 255 k.length with hlong | hshort
  · -- the key is cut off, and what follows it is no `=`
    obtain ⟨c, t, hct⟩ : ∃ c t, k.drop 255 = c :: t :=
      List.exists_cons_of_ne_nil (by simpa using hlong)
    have hc : c ≠ 61 := by
      rintro rfl
      exact hk (List.mem_of_mem_drop (i := 255) (hct ▸ List.mem_cons_self))
    have hcut : 255 < k.length ∨ (r.takeWhile (· ≠ 10)).take 511 = [] := .inl hlong
    rw [List.length_take, Nat.min_eq_left hlong.le, List.drop_append_of_le_length hlong.le, hct,
      if_pos (Or.inr (a := k = []) hcut), ite_eq_left_iff]
    intro _
    split
    case h_1 heq => exact absurd (List.cons.inj heq).1 hc
    case h_2 => rfl
  · rw [List.take_of_length_le hshort, List.drop_left, if_neg hne]
    simp [hne, Nat.not_lt.mpr hshort]

theorem scanSetting_of_notMem (h : 61 ∉ p) : scanSetting p = none := by
  have hdrop : ∀ n rest, p.drop n ≠ 61 :: rest := fun n rest heq =>
    h (List.mem_of_mem_drop (heq ▸ List.mem_cons_self))
  rw [scanSetting]
  dsimp only
  split
  · rfl
  · split
    case h_1 rest heq => exact absurd heq (hdrop _ rest)
    case h_2 => rfl

theorem scanSetting_newline (hp : 10 ∉ p) : scanSetting (p ++ [10]) = scanSetting p := by
  by_cases h61 : 61 ∈ p
  · obtain ⟨k, r, rfl, hk⟩ := List.eq_append_cons_of_mem h61
    have hr : 10 ∉ r := fun h => hp (by simp [h])
    have hall : ∀ c ∈ r, decide (c ≠ 10) = true := fun _ hc => decide_eq_true fun h => hr (h ▸ hc)
    have hvalue : (r ++ [10]).takeWhile (· ≠ 10) = r.takeWhile (· ≠ 10) := by
      rw [List.takeWhile_append_of_pos hall, List.takeWhile_eq_self_iff.mpr hall]
      simp
    rw [List.append_assoc, List.cons_append, scanSetting_split hk, scanSetting_split hk, hvalue]
  · rw [scanSetting_of_notMem h61, scanSetting_of_notMem (by simp [h61])]

theorem configLine_newline (hp : 10 ∉ p) : configLine (p ++ [10]) = configLine p := by
  by_cases h0 : 0 ∈ p
  · have hcstr : cstr (p ++ [10]) = cstr p := by
      obtain ⟨a, b, rfl, ha⟩ := List.eq_append_cons_of_mem h0
      have hall : ∀ c ∈ a, decide (c ≠ 0) = true := fun _ hc => decide_eq_true fun h => ha (h ▸ hc)
      rw [cstr, cstr, List.append_assoc, List.takeWhile_append_of_pos hall,
        List.takeWhile_append_of_pos hall]
      rfl
    rw [configLine, configLine, hcstr]
  · rw [configLine, configLine, cstr_of_notMem h0, cstr_of_notMem (by simp [h0])]
    rw [scanSetting_newline hp, List.dropWhile_append]
    cases hd : p.dropWhile isGap with
    | nil => rfl
    | cons c t => simp only [List.isEmpty_cons, Bool.false_eq_true, if_false, List.cons_append,
        List.head?_cons, reduceCtorEq]

theorem loadLine_newline (hp : 10 ∉ p) : loadLine config (p ++ [10]) = loadLine config p := by
  rw [loadLine, configLine_newline hp, loadLine]

theorem foldl_loadLine_newline (hl : 10 ∉ line) :
    (fgetsAll (line ++ [10])).foldl loadLine config = lineEffect config line := by
  rcases eq_or_ne line [] with rfl | hne
  · rfl
  · obtain ⟨init, last, h1, h2⟩ := @fgetsPieces_newline 1024 1023 line hl hne
    have hlast : 10 ∉ last := notMem_of_mem_fgetsPieces hl (h1 ▸ List.mem_append_right _ (by simp))
    rw [lineEffect, fgetsAll, fgetsAll, h1, List.foldl_append]
    rcases h2 with h2 | h2
    · rw [h2, List.foldl_append]
      exact loadLine_newline hlast
    · rw [h2, List.foldl_append, List.foldl_append]
      rfl

/-- **A file acts line by line**. -/
theorem foldl_fgets_unpieces {lines : List Bytes} (hlines : ∀ l ∈ lines, 10 ∉ l) :
    (fgetsAll (unpieces 10 lines)).foldl loadLine config = lines.foldl lineEffect config := by
  induction lines generalizing config with
  | nil => rfl
  | cons l lines ih =>
    cases lines with
    | nil => rfl
    | cons l' lines =>
      have hrest := @ih (lineEffect config l) fun x hx => hlines x (List.mem_cons_of_mem _ hx)
      rw [unpieces, fgetsAll, fgetsPieces_append_newline, List.foldl_append, List.foldl_cons]
      refine (congrArg (fun c => List.foldl loadLine c (fgetsAll (unpieces 10 (l' :: lines))))
        (foldl_loadLine_newline (hlines l List.mem_cons_self))).trans hrest

end Lines

end ReproVM
