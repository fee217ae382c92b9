/-
# String functions of `util.c` and of the C library

The string half of `util.c` (`trim`, `split_csv_array`, `join_strings`, `hex_encode`) over the
library functions it and `task.c` are written with.  C strings are byte lists without NUL.
-/
import ReproVM.Lib.Decimal
import Mathlib.Tactic.IntervalCases

namespace ReproVM

open Bytes (ascii pieces strip Tight)

/-! ## 1. The C library -/

/-- How a call ends without a result.  The last two are undefined behaviour in C; a run that
reaches one has no result here. -/
inductive Fault
  | outOfFuel
  | useAfterFree
  | bufferOverflow
deriving DecidableEq, Repr

/-- `isspace` in the C locale. -/
def isspace (c : UInt8) : Bool := c = 32 || (9 ≤ c && c ≤ 13)

/-- A digit starts a number: it is no blank and no sign. -/
theorem not_isspace_of_isDigit {c : UInt8} (h : Bytes.isDigit c) : ¬ isspace c ∧ c ≠ 45 ∧ c ≠ 43 := by
  simp only [Bytes.isDigit, isspace, Bool.and_eq_true, Bool.or_eq_true, decide_eq_true_eq] at h ⊢
  have h48 := UInt8.le_iff_toNat_le.mp h.1
  refine ⟨?_, ?_, ?_⟩
  · rintro (rfl | ⟨-, h13⟩)
    · exact absurd h48 (by decide)
    · exact absurd (h48.trans (UInt8.le_iff_toNat_le.mp h13)) (by decide)
  · rintro rfl
    exact absurd h48 (by decide)
  · rintro rfl
    exact absurd h48 (by decide)

/-- `strchr(s, c)`: the string from the first `c` on. -/
def strchr (s : Bytes) (c : UInt8) : Option Bytes :=
  match s.dropWhile (· ≠ c) with
  | [] => none
  | r => some r

/-- `strstr(s, key) == s` and `strncmp(s, key, strlen(key)) == 0`. -/
def startsWith (s key : Bytes) : Bool := key.isPrefixOf s

/-- `strcmp(s, t)`: the difference at the first place where they differ. -/
def strcmp : Bytes → Bytes → Int
  | [], [] => 0
  | [], _ :: _ => -1
  | _ :: _, [] => 1
  | a :: s, b :: t => if a = b then strcmp s t else (a.toNat : Int) - b.toNat

/-- The successive results of `strtok(s, d)`, `strtok(NULL, d)`, ..: the non-empty runs of
other bytes. -/
def strtokAll (d : UInt8) (s : Bytes) : List Bytes := (pieces d s).filter (· ≠ [])

/-- `snprintf` into a buffer of `size` bytes, of the text that the format gives. -/
def snprintf (size : Nat) (text : Bytes) : Bytes := text.take (size - 1)

/-- A file or line buffer read as a C string: up to the first NUL. -/
def cstr (s : Bytes) : Bytes := s.takeWhile (· ≠ 0)

theorem cstr_of_notMem {s : Bytes} (h : 0 ∉ s) : cstr s = s := by
  rw [cstr, List.takeWhile_eq_self_iff]
  rintro c hc
  rw [decide_eq_true_eq]
  rintro rfl
  exact h hc

/-- The lines a `getline` loop delivers, without their newlines: the last one only when it is
not empty. -/
def getlines (s : Bytes) : List Bytes :=
  let ls := pieces 10 s
  if ls.getLast? = some [] then ls.dropLast else ls

/-- `atoi`; where the value is no `int`, C leaves the result open. -/
def atoi (s : Bytes) : Int :=
  let digits (s : Bytes) : Nat :=
    (s.takeWhile fun c => 48 ≤ c && c ≤ 57).foldl (fun n c => 10 * n + (c.toNat - 48)) 0
  match s.dropWhile isspace with
  | 45 :: s => -(digits s : Int)
  | 43 :: s => digits s
  | s => digits s

/-! ## 2. `util.c` -/

/-- The bytes `trim` removes. -/
def isBlank (c : UInt8) : Bool := c = 32 || c = 9 || c = 13 || c = 10

def trim (s : Bytes) : Bytes := strip isBlank s

/-- The loop of `split_csv_array` from `p` on.  The first argument bounds its passes; each
pass but the last moves `p` behind a comma. -/
def splitCsvLoop : Nat → Bytes → List Bytes
  | 0, _ => []
  | n + 1, p =>
    if p = [] then []
    else
      let comma := strchr p 44
      let token := trim (p.takeWhile (· ≠ 44))
      let rest :=
        match comma with
        | none => []
        | some q => splitCsvLoop n q.tail
      if token = [] then rest else token :: rest

def splitCsvArray (line : Bytes) : List Bytes := splitCsvLoop (line.length + 1) line

def joinStrings : List Bytes → Bytes → Bytes
  | [], _ => []
  | [x], _ => x
  | x :: y :: xs, sep => x ++ sep ++ joinStrings (y :: xs) sep

/-- `hex[x]` of the table `"0123456789abcdef"`. -/
def hexDigit (x : UInt8) : UInt8 := (ascii "0123456789abcdef").getD x.toNat 0

def hexEncode (data : Bytes) : Bytes :=
  data.flatMap fun (b : UInt8) => [hexDigit ((b >>> 4) &&& 0xF), hexDigit (b &&& 0xF)]

/-! ## 3. `strcmp` orders strings -/

theorem strcmp_self (s : Bytes) : strcmp s s = 0 := by
  induction s with
  | nil => rfl
  | cons a s ih => rw [strcmp, if_pos rfl, ih]

theorem strcmp_eq_zero {s t : Bytes} : strcmp s t = 0 ↔ s = t := by
  refine ⟨fun h => ?_, fun h => h ▸ strcmp_self s⟩
  induction s generalizing t with
  | nil =>
    cases t with
    | nil => rfl
    | cons b t => simp [strcmp] at h
  | cons a s ih =>
    cases t with
    | nil => simp [strcmp] at h
    | cons b t =>
      rw [strcmp] at h
      split at h
      · rename_i hab
        rw [hab, ih h]
      · rename_i hab
        exact absurd (UInt8.toNat_inj.mp (by omega)) hab

theorem strcmp_swap (s t : Bytes) : strcmp t s = -strcmp s t := by
  induction s generalizing t with
  | nil => cases t <;> rfl
  | cons a s ih =>
    cases t with
    | nil => rfl
    | cons b t =>
      rw [strcmp, strcmp]
      by_cases hab : a = b
      · rw [if_pos hab, if_pos hab.symm, ih]
      · rw [if_neg hab, if_neg (Ne.symm hab)]
        omega

theorem strcmp_trans {s t u : Bytes} (h1 : strcmp s t ≤ 0) (h2 : strcmp t u ≤ 0) :
    strcmp s u ≤ 0 := by
  induction s generalizing t u with
  | nil => cases u <;> simp [strcmp]
  | cons a s ih =>
    cases t with
    | nil => simp [strcmp] at h1
    | cons b t =>
      cases u with
      | nil => simp [strcmp] at h2
      | cons c u =>
        rw [strcmp] at h1 h2 ⊢
        by_cases hab : a = b
        · subst hab
          rw [if_pos rfl] at h1
          by_cases hac : a = c
          · rw [if_pos hac] at h2 ⊢
            exact ih h1 h2
          · rwa [if_neg hac] at h2 ⊢
        · rw [if_neg hab] at h1
          have hne : a.toNat ≠ b.toNat := fun h => hab (UInt8.toNat_inj.mp h)
          by_cases hbc : b = c
          · subst hbc
            rw [if_neg hab]
            exact h1
          · rw [if_neg hbc] at h2
            have hac : a ≠ c := by
              rintro rfl
              omega
            rw [if_neg hac]
            omega

/-- Two words at the beginning of a line begin with the same byte. -/
theorem startsWith_head {s : Bytes} {c d : UInt8} {k k' : Bytes}
    (h : startsWith s (c :: k) = true) (h' : startsWith s (d :: k') = true) : c = d := by
  cases s with
  | nil => cases h
  | cons x s =>
    simp only [startsWith, List.isPrefixOf_cons_cons, Bool.and_eq_true, beq_iff_eq] at h h'
    rw [h.1, h'.1]

/-! ## 4. `split_csv_array` -/

/-- The loop cuts at the commas, trims, and drops what is empty. -/
theorem splitCsvLoop_eq (n : Nat) (p : Bytes) (h : p.length < n) :
    splitCsvLoop n p = ((pieces 44 p).map trim).filter (· ≠ []) := by
  induction n generalizing p with
  | zero => omega
  | succ n ih =>
    rw [splitCsvLoop]
    by_cases hp : p = []
    · rw [if_pos hp, hp]; decide
    · rw [if_neg hp, Bytes.pieces_eq_takeWhile]
      simp only [strchr, List.map_cons]
      generalize trim (p.takeWhile (· ≠ 44)) = token
      cases hd : p.dropWhile (· ≠ 44) with
      | nil => by_cases ht : token = [] <;> simp [ht]
      | cons c q =>
        have hlen : q.length < n := by
          have := (List.dropWhile_suffix (· ≠ 44) (l := p)).length_le
          rw [hd] at this
          simp at this
          omega
        by_cases ht : token = [] <;> simp [ht, ih q hlen]

theorem splitCsvArray_eq (line : Bytes) :
    splitCsvArray line = ((pieces 44 line).map trim).filter (· ≠ []) :=
  splitCsvLoop_eq _ line (by omega)

/-- Every item is non-empty, tight, and made of bytes of the line other than commas. -/
theorem mem_splitCsvArray {line x : Bytes} (h : x ∈ splitCsvArray line) :
    x ≠ [] ∧ Tight isBlank x ∧ 44 ∉ x ∧ ∀ c ∈ x, c ∈ line := by
  rw [splitCsvArray_eq, List.mem_filter, List.mem_map] at h
  obtain ⟨⟨y, hy, rfl⟩, hne⟩ := h
  exact ⟨by simpa using hne, Bytes.tight_strip _ _,
    fun hc => Bytes.notMem_of_mem_pieces hy (Bytes.mem_of_mem_strip hc),
    fun c hc => Bytes.mem_of_mem_pieces hy (Bytes.mem_of_mem_strip hc)⟩

/-! ## 5. `hex_encode` -/

@[simp] theorem hexEncode_length (data : Bytes) : (hexEncode data).length = 2 * data.length := by
  simp [hexEncode, Nat.mul_comm]

theorem hexDigit_inj {x y : UInt8} (hx : x.toNat < 16) (hy : y.toNat < 16)
    (h : hexDigit x = hexDigit y) : x = y := by
  apply UInt8.toNat_inj.mp
  unfold hexDigit at h
  generalize x.toNat = n at hx h
  generalize y.toNat = m at hy h
  revert n m
  decide

theorem nibbles_lt (b : UInt8) : ((b >>> 4) &&& 0xF).toNat < 16 ∧ (b &&& 0xF).toNat < 16 := by
  constructor <;> (rw [UInt8.toNat_and]; exact Nat.lt_of_le_of_lt Nat.and_le_right (by decide))

/-- The digits of a byte determine it. -/
theorem nibbles_inj {a b : UInt8} (h1 : ((a >>> 4) &&& 0xF : UInt8) = (b >>> 4) &&& 0xF)
    (h2 : a &&& 0xF = b &&& 0xF) : a = b := by
  have ha := a.toNat_lt
  have hb := b.toNat_lt
  have e1 := congrArg UInt8.toNat h1
  have e2 := congrArg UInt8.toNat h2
  have hF : (0xF : UInt8).toNat = 2 ^ 4 - 1 := rfl
  have h4 : (4 : UInt8).toNat % 8 = 4 := rfl
  simp only [UInt8.toNat_and, UInt8.toNat_shiftRight, hF, h4, Nat.and_two_pow_sub_one_eq_mod,
    Nat.shiftRight_eq_div_pow] at e1 e2
  apply UInt8.toNat_inj.mp
  omega

theorem hexEncode_inj {s t : Bytes} (h : hexEncode s = hexEncode t) : s = t := by
  induction s generalizing t with
  | nil =>
    cases t with
    | nil => rfl
    | cons b t => simp [hexEncode] at h
  | cons a s ih =>
    cases t with
    | nil => simp [hexEncode] at h
    | cons b t =>
      simp only [hexEncode, List.flatMap_cons, List.cons_append, List.nil_append,
        List.cons.injEq] at h
      obtain ⟨h1, h2, h3⟩ := h
      rw [nibbles_inj (hexDigit_inj (nibbles_lt a).1 (nibbles_lt b).1 h1)
        (hexDigit_inj (nibbles_lt a).2 (nibbles_lt b).2 h2), ih h3]

/-- The bytes `hex_encode` writes. -/
theorem mem_hexEncode {data : Bytes} {c : UInt8} (h : c ∈ hexEncode data) :
    c ∈ ascii "0123456789abcdef" := by
  have hd : ∀ x : UInt8, x.toNat < 16 → hexDigit x ∈ ascii "0123456789abcdef" := by
    intro x hx
    have hlen : x.toNat < (ascii "0123456789abcdef").length := hx
    rw [hexDigit, List.getD_eq_getElem?_getD, List.getElem?_eq_getElem hlen]
    exact List.getElem_mem hlen
  rw [hexEncode, List.mem_flatMap] at h
  obtain ⟨b, -, hb⟩ := h
  simp only [List.mem_cons, List.not_mem_nil, or_false] at hb
  rcases hb with rfl | rfl
  · exact hd _ (nibbles_lt b).1
  · exact hd _ (nibbles_lt b).2

end ReproVM
