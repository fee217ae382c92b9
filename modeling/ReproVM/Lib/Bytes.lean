/-
# Byte strings: stripping, cutting at a separator, ordering

What C code does to a string with pointer loops is, on lists of bytes, one of three things:
dropping a kind of byte from an end (`strip`), cutting at every occurrence of a byte
(`pieces`), and looking at a prefix.  The laws here say when these undo an append, which is
what reading back a text that was put together needs.
-/
import Mathlib.Data.List.DropRight
import Mathlib.Data.List.TakeWhile

/-- A C string or a file content: a list of bytes. -/
abbrev Bytes := List UInt8

namespace Bytes

/-- The bytes of an ASCII literal. -/
def ascii (s : String) : Bytes := s.toList.map fun c => UInt8.ofNat c.toNat

/-- A literal is made from its characters; to get them back from its bytes takes long. -/
theorem ascii_ofList (l : List Char) :
    ascii (String.ofList l) = l.map fun c => UInt8.ofNat c.toNat := by
  rw [ascii, String.toList_ofList]

/-- What holds of the bytes of a string is checked on its bytes, not on all 256. -/
instance (priority := 2000) decidableForallMem {p : UInt8 → Prop} [DecidablePred p] (s : Bytes) :
    Decidable (∀ c ∈ s, p c) :=
  List.decidableBAll p s

/-! ## 1. Stripping -/

section Strip

variable {p : UInt8 → Bool} {a b s : Bytes}

/-- Drop the bytes that satisfy `p` from both ends. -/
def strip (p : UInt8 → Bool) (s : Bytes) : Bytes := (s.dropWhile p).rdropWhile p

/-- `s` neither begins nor ends with a byte that satisfies `p`. -/
structure Tight (p : UInt8 → Bool) (s : Bytes) : Prop where
  head : ∀ c ∈ s.head?, ¬ p c
  last : ∀ c ∈ s.getLast?, ¬ p c

theorem tight_of_forall (h : ∀ c ∈ s, ¬ p c) : Tight p s :=
  ⟨fun c hc => h c (List.mem_of_mem_head? hc), fun c hc => h c (List.mem_of_mem_getLast? hc)⟩

/-- A non-empty front without `p` at its head and a non-empty end without `p` at its last. -/
theorem Tight.append (ha : Tight p a) (hb : Tight p b) (hna : a ≠ []) (hnb : b ≠ []) :
    Tight p (a ++ s ++ b) := by
  refine ⟨fun c hc => ha.head c ?_, fun c hc => hb.last c ?_⟩
  · obtain ⟨x, l, rfl⟩ := List.exists_cons_of_ne_nil hna
    simpa using hc
  · rwa [List.getLast?_append_of_ne_nil _ hnb] at hc

theorem dropWhile_of_head (h : ∀ c ∈ s.head?, ¬ p c) : s.dropWhile p = s := by
  cases s with
  | nil => rfl
  | cons c s => exact List.dropWhile_cons_of_neg (h c rfl)

theorem dropWhile_of_all (h : ∀ c ∈ s, p c) : s.dropWhile p = [] :=
  List.dropWhile_eq_nil_iff.mpr h

theorem rdropWhile_append_of_all (h : ∀ c ∈ b, p c) : (s ++ b).rdropWhile p = s.rdropWhile p := by
  rw [List.rdropWhile, List.reverse_append,
    List.dropWhile_append_of_pos (by simpa using h), ← List.rdropWhile]

theorem rdropWhile_of_last (h : ∀ c ∈ s.getLast?, ¬ p c) : s.rdropWhile p = s := by
  refine List.rdropWhile_eq_self_iff.mpr fun hne => h _ ?_
  exact List.getLast?_eq_some_getLast hne

/-- **Padding around a tight string strips off.** -/
theorem strip_wrap (ha : ∀ c ∈ a, p c) (hb : ∀ c ∈ b, p c) (hs : Tight p s) :
    strip p (a ++ s ++ b) = s := by
  rw [strip, List.append_assoc, List.dropWhile_append_of_pos ha]
  rcases eq_or_ne s [] with rfl | hne
  · rw [List.nil_append, dropWhile_of_all hb]; rfl
  · have hd : (s ++ b).dropWhile p = s ++ b := by
      refine dropWhile_of_head fun c hc => hs.head c ?_
      obtain ⟨x, l, rfl⟩ := List.exists_cons_of_ne_nil hne
      simpa using hc
    rw [hd, rdropWhile_append_of_all hb, rdropWhile_of_last hs.last]

theorem strip_of_tight (hs : Tight p s) : strip p s = s := by
  simpa using strip_wrap (a := []) (b := []) (by simp) (by simp) hs

theorem strip_of_all (h : ∀ c ∈ s, p c) : strip p s = [] := by
  rw [strip, dropWhile_of_all h]; rfl

theorem rdropWhile_append_cons {c : UInt8} (h : ¬ p c) :
    (a ++ c :: s).rdropWhile p = a ++ c :: s.rdropWhile p := by
  simp only [List.rdropWhile, List.reverse_append, List.reverse_cons, List.append_assoc]
  rw [List.dropWhile_append]
  by_cases hs : ∀ x ∈ s, p x
  · have hnil : s.reverse.dropWhile p = [] := dropWhile_of_all (by simpa using hs)
    simp [hnil, h]
  · have hne : s.reverse.dropWhile p ≠ [] := by
      intro hnil
      exact hs (by simpa using List.dropWhile_eq_nil_iff.mp hnil)
    simp [hne]

theorem strip_append_of_all (hb : ∀ c ∈ b, p c) : strip p (s ++ b) = strip p s := by
  rw [strip, strip, List.dropWhile_append]
  by_cases hs : s.dropWhile p = []
  · simp [hs, dropWhile_of_all hb]
  · simp [hs, rdropWhile_append_of_all hb]

theorem strip_of_all_append (ha : ∀ c ∈ a, p c) : strip p (a ++ s) = strip p s := by
  rw [strip, strip, List.dropWhile_append_of_pos ha]

/-- A string is what its stripping leaves, with the removed bytes around it. -/
theorem exists_strip (p : UInt8 → Bool) (s : Bytes) :
    ∃ a b, (∀ c ∈ a, p c) ∧ (∀ c ∈ b, p c) ∧ s = a ++ strip p s ++ b := by
  refine ⟨s.takeWhile p, (s.dropWhile p).rtakeWhile p, fun c hc => List.mem_takeWhile_imp hc,
    fun c hc => List.mem_rtakeWhile_imp hc, ?_⟩
  rw [strip, List.append_assoc, List.rdropWhile_append_rtakeWhile, List.takeWhile_append_dropWhile]

theorem exists_rdropWhile (p : UInt8 → Bool) (s : Bytes) :
    ∃ b, (∀ c ∈ b, p c) ∧ s = s.rdropWhile p ++ b :=
  ⟨s.rtakeWhile p, fun _ hc => List.mem_rtakeWhile_imp hc,
    (List.rdropWhile_append_rtakeWhile ..).symm⟩

/-- What is left after stripping is tight. -/
theorem tight_strip (p : UInt8 → Bool) (s : Bytes) : Tight p (strip p s) := by
  constructor
  · intro c hc hp
    have hpre : strip p s <+: s.dropWhile p := List.rdropWhile_prefix p _
    obtain ⟨t, ht⟩ := hpre
    have hd : (s.dropWhile p).head? = some c := by
      rw [← ht]
      cases hs : strip p s with
      | nil => rw [hs] at hc; simp at hc
      | cons x l => rw [hs] at hc; simpa using hc
    have := List.head?_dropWhile_not p s
    rw [hd] at this
    simp [hp] at this
  · intro c hc hp
    have hne : strip p s ≠ [] := by
      intro h
      rw [h] at hc
      simp at hc
    have hl := List.rdropWhile_last_not p (s.dropWhile p) hne
    rw [List.getLast?_eq_some_getLast hne] at hc
    simp only [Option.mem_def, Option.some.injEq] at hc
    exact hl (hc ▸ hp)

/-- Stripping only removes bytes. -/
theorem mem_of_mem_strip {c : UInt8} (h : c ∈ strip p s) : c ∈ s :=
  (List.dropWhile_suffix p).subset ((List.rdropWhile_prefix p _).subset h)

end Strip

/-! ## 2. Cutting at a separator -/

section Pieces

variable {d : UInt8} {s t : Bytes}

/-- The pieces of `s` between the occurrences of `d`: one more than there are occurrences. -/
def pieces (d : UInt8) : Bytes → List Bytes
  | [] => [[]]
  | c :: s =>
    if c = d then [] :: pieces d s
    else match pieces d s with
      | [] => [[c]]
      | x :: xs => (c :: x) :: xs

theorem pieces_ne_nil : pieces d s ≠ [] := by
  cases s with
  | nil => simp [pieces]
  | cons c s =>
    rw [pieces]
    split
    · simp
    · split <;> simp

theorem pieces_of_notMem (h : d ∉ s) : pieces d s = [s] := by
  induction s with
  | nil => rfl
  | cons c s ih =>
    rw [List.mem_cons, not_or] at h
    rw [pieces, if_neg (Ne.symm h.1), ih h.2]

/-- A separator splits the pieces before it from those after it. -/
theorem pieces_append_cons : pieces d (s ++ d :: t) = pieces d s ++ pieces d t := by
  induction s with
  | nil => simp [pieces]
  | cons c s ih =>
    rw [List.cons_append, pieces, pieces, ih]
    by_cases hc : c = d
    · simp [hc]
    · rw [if_neg hc, if_neg hc]
      cases hs : pieces d s with
      | nil => exact absurd hs pieces_ne_nil
      | cons x xs => simp

theorem pieces_append_sep (h : d ∉ s) : pieces d (s ++ d :: t) = s :: pieces d t := by
  rw [pieces_append_cons, pieces_of_notMem h, List.singleton_append]

/-- Bytes put in front join the first piece. -/
theorem pieces_append_left (h : d ∉ s) {x : Bytes} {xs : List Bytes} (ht : pieces d t = x :: xs) :
    pieces d (s ++ t) = (s ++ x) :: xs := by
  induction s with
  | nil => exact ht
  | cons c s ih =>
    rw [List.mem_cons, not_or] at h
    rw [List.cons_append, pieces, if_neg (Ne.symm h.1), ih h.2, List.cons_append]

/-- Bytes put behind join the last piece. -/
theorem pieces_append_right (h : d ∉ t) :
    ∃ xs x, pieces d s = xs ++ [x] ∧ pieces d (s ++ t) = xs ++ [x ++ t] := by
  induction s with
  | nil => exact ⟨[], [], rfl, pieces_of_notMem h⟩
  | cons c s ih =>
    obtain ⟨xs, x, h1, h2⟩ := ih
    rw [List.cons_append, pieces, pieces, h1, h2]
    by_cases hc : c = d
    · exact ⟨[] :: xs, x, by simp [hc], by simp [hc]⟩
    · cases xs with
      | nil => exact ⟨[], c :: x, by simp [hc], by simp [hc]⟩
      | cons y ys => exact ⟨(c :: y) :: ys, x, by simp [hc], by simp [hc]⟩

/-- Stripping a string first does not change its stripped pieces. -/
theorem map_strip_pieces_strip {p : UInt8 → Bool} (hd : p d = false) (s : Bytes) :
    (pieces d (strip p s)).map (strip p) = (pieces d s).map (strip p) := by
  obtain ⟨a, b, ha, hb, hs⟩ := exists_strip p s
  have hda : d ∉ a := fun h => by simp [ha d h] at hd
  have hdb : d ∉ b := fun h => by simp [hb d h] at hd
  generalize strip p s = t at hs
  obtain ⟨x, xs, hx⟩ := List.exists_cons_of_ne_nil (pieces_ne_nil (d := d) (s := t))
  obtain ⟨ys, y, h1, h2⟩ := pieces_append_right (s := a ++ t) hdb
  rw [hs, h2, List.map_append, List.map_singleton, strip_append_of_all hb, ← List.map_singleton,
    ← List.map_append, ← h1, pieces_append_left hda hx, hx, List.map_cons, List.map_cons,
    strip_of_all_append ha]

/-- No piece holds the separator. -/
theorem notMem_of_mem_pieces {x : Bytes} (h : x ∈ pieces d s) : d ∉ x := by
  induction s generalizing x with
  | nil =>
    rw [pieces, List.mem_singleton] at h
    simp [h]
  | cons c s ih =>
    rw [pieces] at h
    split at h
    · rcases List.mem_cons.mp h with rfl | h
      · simp
      · exact ih h
    · rename_i hcd
      split at h
      · rename_i hnil
        exact absurd hnil pieces_ne_nil
      · rename_i y ys hys
        rcases List.mem_cons.mp h with rfl | h
        · rw [List.mem_cons, not_or]
          exact ⟨Ne.symm hcd, ih (hys ▸ List.mem_cons_self)⟩
        · exact ih (hys ▸ List.mem_cons_of_mem _ h)

/-- A byte that is no separator lies in a piece. -/
theorem exists_piece {c : UInt8} (h : c ∈ s) (hc : c ≠ d) : ∃ x ∈ pieces d s, c ∈ x := by
  induction s with
  | nil => cases h
  | cons b s ih =>
    rw [pieces]
    by_cases hb : b = d
    · rw [if_pos hb]
      rcases List.mem_cons.mp h with rfl | h
      · exact absurd hb hc
      · obtain ⟨x, hx, hcx⟩ := ih h
        exact ⟨x, List.mem_cons_of_mem _ hx, hcx⟩
    · rw [if_neg hb]
      obtain ⟨y, ys, hy⟩ := List.exists_cons_of_ne_nil (pieces_ne_nil (d := d) (s := s))
      rw [hy] at ih ⊢
      rcases List.mem_cons.mp h with rfl | h
      · exact ⟨c :: y, List.mem_cons_self, List.mem_cons_self⟩
      · obtain ⟨x, hx, hcx⟩ := ih h
        rcases List.mem_cons.mp hx with rfl | hx
        · exact ⟨b :: x, List.mem_cons_self, List.mem_cons_of_mem _ hcx⟩
        · exact ⟨x, List.mem_cons_of_mem _ hx, hcx⟩

/-- The bytes of a piece are bytes of the string. -/
theorem mem_of_mem_pieces {x : Bytes} {c : UInt8} (h : x ∈ pieces d s) (hc : c ∈ x) : c ∈ s := by
  induction s generalizing x with
  | nil =>
    rw [pieces, List.mem_singleton] at h
    simp [h] at hc
  | cons b s ih =>
    rw [pieces] at h
    split at h
    · rcases List.mem_cons.mp h with rfl | h
      · simp at hc
      · exact List.mem_cons_of_mem _ (ih h hc)
    · split at h
      · rename_i hnil
        exact absurd hnil pieces_ne_nil
      · rename_i y ys hys
        rcases List.mem_cons.mp h with rfl | h
        · rcases List.mem_cons.mp hc with rfl | hc
          · exact List.mem_cons_self
          · exact List.mem_cons_of_mem _ (ih (hys ▸ List.mem_cons_self) hc)
        · exact List.mem_cons_of_mem _ (ih (hys ▸ List.mem_cons_of_mem _ h) hc)

/-- A separator that is not in what comes before it ends it. -/
theorem append_sep_inj {s' t' : Bytes} (h : d ∉ s) (h' : d ∉ s') :
    s ++ d :: t = s' ++ d :: t' ↔ s = s' ∧ t = t' := by
  constructor
  · intro he
    induction s generalizing s' with
    | nil =>
      cases s' with
      | nil => exact ⟨rfl, (List.cons.inj he).2⟩
      | cons c s' => exact absurd (List.cons.inj he).1 fun hc => h' (hc ▸ List.mem_cons_self)
    | cons c s ih =>
      cases s' with
      | nil => exact absurd (List.cons.inj he).1 fun hc => h (hc ▸ List.mem_cons_self)
      | cons c' s' =>
        obtain ⟨hc, hcut⟩ := List.cons.inj he
        obtain ⟨hs, ht⟩ := ih (fun hm => h (List.mem_cons_of_mem _ hm))
          (fun hm => h' (List.mem_cons_of_mem _ hm)) hcut
        exact ⟨by rw [hc, hs], ht⟩
  · rintro ⟨rfl, rfl⟩
    rfl

/-- Strings joined with the separator between them. -/
def unpieces (d : UInt8) : List Bytes → Bytes
  | [] => []
  | [x] => x
  | x :: y :: xs => x ++ d :: unpieces d (y :: xs)

/-- **Cutting undoes joining** when no part holds the separator. -/
theorem pieces_unpieces {xs : List Bytes} (hne : xs ≠ []) (h : ∀ x ∈ xs, d ∉ x) :
    pieces d (unpieces d xs) = xs := by
  induction xs with
  | nil => exact absurd rfl hne
  | cons x xs ih =>
    cases xs with
    | nil => exact pieces_of_notMem (h x (by simp))
    | cons y ys =>
      rw [unpieces, pieces_append_sep (h x (by simp)),
        ih (by simp) fun z hz => h z (List.mem_cons_of_mem _ hz)]

/-- Joining undoes cutting. -/
theorem unpieces_pieces (d : UInt8) (s : Bytes) : unpieces d (pieces d s) = s := by
  induction s with
  | nil => rfl
  | cons c s ih =>
    obtain ⟨x, xs, hx⟩ := List.exists_cons_of_ne_nil (pieces_ne_nil (d := d) (s := s))
    rw [pieces]
    rw [hx] at ih ⊢
    by_cases hc : c = d
    · rw [if_pos hc, unpieces, ih, hc, List.nil_append]
    · rw [if_neg hc]
      cases xs with
      | nil => rw [← ih]; rfl
      | cons y ys => rw [← ih]; rfl

/-- What is in the joined string is a separator or in a part. -/
theorem mem_unpieces {xs : List Bytes} {c : UInt8} (h : c ∈ unpieces d xs) :
    c = d ∨ ∃ x ∈ xs, c ∈ x := by
  induction xs with
  | nil => simp [unpieces] at h
  | cons x xs ih =>
    cases xs with
    | nil => exact .inr ⟨x, List.mem_singleton_self x, h⟩
    | cons y ys =>
      rw [unpieces, List.mem_append, List.mem_cons] at h
      rcases h with h | h | h
      · exact .inr ⟨x, List.mem_cons_self, h⟩
      · exact .inl h
      · rcases ih h with h | ⟨z, hz, h⟩
        · exact .inl h
        · exact .inr ⟨z, List.mem_cons_of_mem _ hz, h⟩

/-- Strings with the separator after each of them. -/
theorem flatMap_sep (d : UInt8) (xs : List Bytes) :
    xs.flatMap (· ++ [d]) = unpieces d (xs ++ [[]]) := by
  induction xs with
  | nil => rfl
  | cons x xs ih =>
    obtain ⟨y, ys, hy⟩ := List.exists_cons_of_ne_nil (by simp : xs ++ [[]] ≠ [])
    rw [List.flatMap_cons, ih, List.cons_append, hy, unpieces, List.append_assoc]
    rfl

/-- The first piece and the rest, as a search for the separator finds them. -/
theorem pieces_eq_takeWhile (d : UInt8) (s : Bytes) :
    pieces d s = s.takeWhile (· ≠ d) ::
      match s.dropWhile (· ≠ d) with
      | [] => []
      | _ :: r => pieces d r := by
  induction s with
  | nil => simp [pieces]
  | cons c s ih =>
    rw [pieces]
    by_cases h : c = d
    · simp [h]
    · rw [if_neg h, ih]
      simp [h]

end Pieces

end Bytes
