/-
# The text of a record

What `write_task_record` writes, as one text, and what `try_load_task_record` reads of it: the
result hash, and of each output line the first two words (`readEntry`), for 64 lines at most.  So
outputs without a space are read back, in order, with the hashes of their blobs.
-/
import ReproVM.Cache

namespace ReproVM

open Bytes (ascii pieces strip)

/-! ## 1. The text -/

def outputLine (entry : Bytes × Bytes) : Bytes := ascii "output " ++ entry.1 ++ ascii " " ++ entry.2

/-- The file that `write_task_record` leaves, for the outputs it could store. -/
def recordText (taskHash : Bytes) (r : Record) : Bytes :=
  ascii "task_hash: " ++ taskHash ++ ascii "\n" ++
    (ascii "result_hash: " ++ r.resultHash ++ ascii "\n") ++
    r.outputs.flatMap fun entry => outputLine entry ++ ascii "\n"

/-- A name that the reader does not cut. -/
structure PlainName (s : Bytes) : Prop where
  ne_nil : s ≠ []
  nul : 0 ∉ s
  newline : 10 ∉ s
  space : 32 ∉ s

/-! ## 2. Lines -/

theorem getlines_nil : getlines [] = [] := by decide

/-- An empty file is read as well. -/
theorem readRecord_nil : readRecord [] = .ok ⟨[], []⟩ := by decide

/-- A file of full lines gives these lines. -/
theorem getlines_cons {l rest : Bytes} (h : 10 ∉ l) : getlines (l ++ 10 :: rest) = l :: getlines rest := by
  have hne : pieces 10 rest ≠ [] := Bytes.pieces_ne_nil
  obtain ⟨x, xs, hp⟩ := List.exists_cons_of_ne_nil hne
  rw [getlines, getlines, Bytes.pieces_append_sep h, hp]
  simp only [List.getLast?_cons_cons]
  split
  · rw [List.dropLast_cons_of_ne_nil (by simp)]
  · rfl

theorem IsHash.notMem {h : Bytes} (hh : IsHash h) {c : UInt8} (hc : c ∉ ascii "0123456789abcdef") :
    c ∉ h :=
  fun hm => hc (hh.hex c hm)

theorem IsHash.ne_nil {h : Bytes} (hh : IsHash h) : h ≠ [] := by
  rintro rfl
  simpa using hh.length

/-- A line that begins with no blank and ends with a hash. -/
theorem IsHash.tight_line {h : Bytes} (hh : IsHash h) {c : UInt8} (hc : ¬ isBlank c) (s : Bytes) :
    Bytes.Tight isBlank (c :: s ++ h) := by
  have hall : ∀ x ∈ ascii "0123456789abcdef", ¬ isBlank x := by decide
  have h1 : Bytes.Tight isBlank [c] := Bytes.tight_of_forall (by simpa using hc)
  exact h1.append (Bytes.tight_of_forall fun x hx => hall x (hh.hex x hx)) (by simp) hh.ne_nil

/-- The line as the reader sees it is the line that was written. -/
theorem trim_cstr {s : Bytes} (h0 : 0 ∉ s) (ht : Bytes.Tight isBlank s) : trim (cstr s) = s := by
  rw [cstr_of_notMem h0]
  exact Bytes.strip_of_tight ht

/-! ## 3. The lines of a record -/

theorem readRecordLine_taskHash (r : Record) {key : Bytes} (hk : IsHash key) :
    readRecordLine r (ascii "task_hash: " ++ key) = .ok r := by
  have h0 : (0 : UInt8) ∉ ascii "task_hash: " ++ key := by
    rw [List.mem_append, not_or]
    exact ⟨by decide, hk.notMem (by decide)⟩
  rw [readRecordLine, trim_cstr h0 (hk.tight_line (by decide) (ascii "ask_hash: "))]
  simp [startsWith, ascii, List.isPrefixOf]

theorem readRecordLine_resultHash (r : Record) {h : Bytes} (hh : IsHash h) :
    readRecordLine r (ascii "result_hash: " ++ h) = .ok { r with resultHash := h } := by
  have h0 : (0 : UInt8) ∉ ascii "result_hash: " ++ h := by
    rw [List.mem_append, not_or]
    exact ⟨by decide, hh.notMem (by decide)⟩
  have hspace : ∀ c ∈ ascii "0123456789abcdef", ¬ isspace c := by decide
  have hdrop : ((ascii "result_hash: " ++ h).drop 12).dropWhile isspace = h := by
    rw [List.drop_append_of_le_length (by decide),
      show (ascii "result_hash: ").drop 12 = [32] by decide, List.singleton_append,
      List.dropWhile_cons_of_pos (by decide)]
    exact Bytes.dropWhile_of_head fun c hc => hspace c (hh.hex c (List.mem_of_mem_head? hc))
  have hstart : startsWith (ascii "result_hash: " ++ h) (ascii "result_hash:") = true := by
    simp [startsWith, ascii, List.isPrefixOf]
  rw [readRecordLine, trim_cstr h0 (hh.tight_line (by decide) (ascii "esult_hash: "))]
  simp only [hstart, if_true, hdrop]
  rw [List.take_of_length_le (by rw [hh.length]; decide)]

/-- What the reader makes of an output line: its first two words. -/
def readEntry (entry : Bytes × Bytes) : Bytes × Bytes :=
  match strtokAll 32 (entry.1 ++ 32 :: entry.2) with
  | fname :: h :: _ => (fname, h)
  | _ => entry

/-- A name that is a line of its own, with something in it. -/
structure LineName (s : Bytes) : Prop where
  word : ∃ c ∈ s, c ≠ 32
  nul : 0 ∉ s
  newline : 10 ∉ s

theorem PlainName.lineName {s : Bytes} (h : PlainName s) : LineName s where
  word := by
    obtain ⟨c, l, rfl⟩ := List.exists_cons_of_ne_nil h.ne_nil
    exact ⟨c, List.mem_cons_self, fun hc => h.space (hc ▸ List.mem_cons_self)⟩
  nul := h.nul
  newline := h.newline

/-- The words of an output line. -/
theorem words_outputLine {name h : Bytes} (hh : IsHash h) :
    strtokAll 32 (name ++ 32 :: h) = strtokAll 32 name ++ [h] := by
  rw [strtokAll, Bytes.pieces_append_cons, List.filter_append,
    Bytes.pieces_of_notMem (hh.notMem (by decide)), ← strtokAll]
  simp [hh.ne_nil]

theorem words_ne_nil {name : Bytes} (hn : ∃ c ∈ name, c ≠ 32) : strtokAll 32 name ≠ [] := by
  obtain ⟨c, hc, hne⟩ := hn
  obtain ⟨w, hw, hcw⟩ := Bytes.exists_piece hc hne
  exact List.ne_nil_of_mem (List.mem_filter.mpr ⟨hw, by simpa using List.ne_nil_of_mem hcw⟩)

/-- A line is read as the two words, if there is room for it. -/
theorem readRecordLine_output {r : Record} {entry : Bytes × Bytes} (hn : LineName entry.1)
    (hh : IsHash entry.2) :
    readRecordLine r (outputLine entry) =
      if r.outputs.length < 64 then .ok { r with outputs := r.outputs ++ [readEntry entry] }
      else .error .bufferOverflow := by
  obtain ⟨name, h⟩ := entry
  have h0 : (0 : UInt8) ∉ outputLine (name, h) := by
    simp only [outputLine, List.mem_append, not_or]
    exact ⟨⟨⟨by decide, hn.nul⟩, by decide⟩, hh.notMem (by decide)⟩
  have htight : Bytes.Tight isBlank (outputLine (name, h)) := by
    have := hh.tight_line (c := 111) (by decide) (ascii "utput " ++ name ++ ascii " ")
    simpa [outputLine, ascii] using this
  have hresult : startsWith (outputLine (name, h)) (ascii "result_hash:") = false := by
    simp [outputLine, startsWith, ascii, List.isPrefixOf]
  have hstart : startsWith (outputLine (name, h)) (ascii "output ") = true := by
    simp [outputLine, startsWith, ascii, List.isPrefixOf]
  have hdrop : (outputLine (name, h)).drop 7 = name ++ 32 :: h := by
    simp [outputLine, ascii]
  obtain ⟨w, ws, hw⟩ := List.exists_cons_of_ne_nil (words_ne_nil hn.word)
  have htok : ∃ x xs, strtokAll 32 (name ++ 32 :: h) = w :: x :: xs := by
    rw [words_outputLine hh, hw]
    cases ws with
    | nil => exact ⟨h, [], rfl⟩
    | cons x xs => exact ⟨x, xs ++ [h], rfl⟩
  obtain ⟨x, xs, htok⟩ := htok
  rw [readRecordLine, trim_cstr h0 htight]
  simp only [hresult, hstart, hdrop, readEntry, htok, if_true, Bool.false_eq_true, if_false]

/-- A name is read back where it is one word. -/
theorem readEntry_eq_iff {entry : Bytes × Bytes} (hn : LineName entry.1) (hh : IsHash entry.2) :
    readEntry entry = entry ↔ 32 ∉ entry.1 := by
  obtain ⟨name, h⟩ := entry
  obtain ⟨w, ws, hw⟩ := List.exists_cons_of_ne_nil (words_ne_nil hn.word)
  constructor
  · intro he hs
    have hmem : w ∈ strtokAll 32 name := hw ▸ List.mem_cons_self
    have hfst : (readEntry (name, h)).1 = w := by
      rw [readEntry, words_outputLine hh, hw]
      cases ws <;> rfl
    rw [he] at hfst
    exact Bytes.notMem_of_mem_pieces (List.mem_filter.mp hmem).1 (hfst ▸ hs)
  · intro hs
    have hne : name ≠ [] := List.ne_nil_of_mem hn.word.choose_spec.1
    have hone : strtokAll 32 name = [name] := by
      rw [strtokAll, Bytes.pieces_of_notMem hs]
      simp [hne]
    rw [readEntry, words_outputLine hh, hone]
    rfl

/-! ## 4. The round trip -/

/-- The lines of the outputs are read in order, as long as there is room. -/
theorem foldlM_outputLines {entries : List (Bytes × Bytes)} {r : Record}
    (hr : r.outputs.length ≤ 64)
    (hok : ∀ entry ∈ entries, LineName entry.1 ∧ IsHash entry.2) :
    (entries.map outputLine).foldlM readRecordLine r =
      if r.outputs.length + entries.length ≤ 64 then
        .ok { r with outputs := r.outputs ++ entries.map readEntry }
      else .error .bufferOverflow := by
  induction entries generalizing r with
  | nil => simp [pure, Except.pure, hr]
  | cons entry entries ih =>
    obtain ⟨hn, hh⟩ := hok entry List.mem_cons_self
    rw [List.map_cons, List.foldlM_cons, readRecordLine_output hn hh]
    by_cases hlt : r.outputs.length < 64
    · simp only [if_pos hlt, bind, Except.bind]
      rw [ih (by simp only [List.length_append, List.length_singleton]; omega) fun e he => hok e (List.mem_cons_of_mem _ he)]
      simp [Nat.add_comm, Nat.add_left_comm]
    · simp only [if_neg hlt, bind, Except.bind]
      rw [if_neg]
      rw [List.length_cons]
      omega

theorem getlines_outputs {entries : List (Bytes × Bytes)}
    (hok : ∀ entry ∈ entries, LineName entry.1 ∧ IsHash entry.2) :
    getlines (entries.flatMap fun entry => outputLine entry ++ ascii "\n")
      = entries.map outputLine := by
  induction entries with
  | nil => exact getlines_nil
  | cons entry entries ih =>
    obtain ⟨hn, hh⟩ := hok entry List.mem_cons_self
    have h10 : 10 ∉ outputLine entry := by
      simp only [outputLine, List.mem_append, not_or]
      exact ⟨⟨⟨by decide, hn.newline⟩, by decide⟩, hh.notMem (by decide)⟩
    rw [List.flatMap_cons, List.append_assoc, show ascii "\n" = [10] by decide,
      List.singleton_append, getlines_cons h10, List.map_cons]
    congr 1
    exact ih fun e he => hok e (List.mem_cons_of_mem _ he)

/-- **What is read of a record that was written.** -/
theorem readRecord_recordText_eq {key : Bytes} {r : Record} (hk : IsHash key)
    (hr : IsHash r.resultHash)
    (hok : ∀ entry ∈ r.outputs, LineName entry.1 ∧ IsHash entry.2) :
    readRecord (recordText key r) =
      if r.outputs.length ≤ 64 then .ok ⟨r.resultHash, r.outputs.map readEntry⟩
      else .error .bufferOverflow := by
  have h1 : (10 : UInt8) ∉ ascii "task_hash: " ++ key := by
    rw [List.mem_append, not_or]
    exact ⟨by decide, hk.notMem (by decide)⟩
  have h2 : (10 : UInt8) ∉ ascii "result_hash: " ++ r.resultHash := by
    rw [List.mem_append, not_or]
    exact ⟨by decide, hr.notMem (by decide)⟩
  have hlines : getlines (recordText key r) = (ascii "task_hash: " ++ key) ::
      (ascii "result_hash: " ++ r.resultHash) :: r.outputs.map outputLine := by
    rw [← getlines_outputs hok, ← getlines_cons h2, ← getlines_cons h1, recordText]
    simp [show ascii "\n" = [10] by decide]
  rw [readRecord, hlines, List.foldlM_cons, readRecordLine_taskHash _ hk]
  simp only [bind, Except.bind]
  rw [List.foldlM_cons, readRecordLine_resultHash _ hr]
  simp only [bind, Except.bind]
  rw [foldlM_outputLines (by simp) hok]
  simp

/-- **It is read back** exactly where it has no more outputs than there is room for, none with a
space. -/
theorem readRecord_recordText_iff {key : Bytes} {r : Record} (hk : IsHash key)
    (hr : IsHash r.resultHash)
    (hok : ∀ entry ∈ r.outputs, LineName entry.1 ∧ IsHash entry.2) :
    readRecord (recordText key r) = .ok r ↔
      (∀ entry ∈ r.outputs, 32 ∉ entry.1) ∧ r.outputs.length ≤ 64 := by
  rw [readRecord_recordText_eq hk hr hok]
  have hmap : r.outputs.map readEntry = r.outputs ↔ ∀ entry ∈ r.outputs, 32 ∉ entry.1 := by
    conv_lhs => rw [← List.map_id r.outputs, List.map_map]
    rw [Function.comp_id, List.map_inj_left]
    exact forall₂_congr fun entry he => readEntry_eq_iff (hok entry he).1 (hok entry he).2
  rw [← hmap]
  by_cases hlen : r.outputs.length ≤ 64
  · rw [if_pos hlen]
    constructor
    · intro h
      exact ⟨congrArg Record.outputs (Except.ok.inj h), hlen⟩
    · rintro ⟨h, -⟩
      rw [h]
  · rw [if_neg hlen]
    constructor
    · intro h
      cases h
    · rintro ⟨-, h⟩
      exact absurd h hlen

theorem readRecord_recordText {key : Bytes} {r : Record} (hk : IsHash key) (hr : IsHash r.resultHash)
    (hlen : r.outputs.length ≤ 64)
    (hok : ∀ entry ∈ r.outputs, PlainName entry.1 ∧ IsHash entry.2) :
    readRecord (recordText key r) = .ok r :=
  (readRecord_recordText_iff hk hr fun e he => ⟨(hok e he).1.lineName, (hok e he).2⟩).mpr
    ⟨fun e he => (hok e he).1.space, hlen⟩

end ReproVM
