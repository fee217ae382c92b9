/-
# Comma lists in memory

`trim`, `split_csv_array` and `join_strings` as they go through the cells of their blocks: the
string that is moved to the front of its own buffer, the token that is cut out of a copy, the array
that doubles, the `strcat` into a buffer whose size was summed up before.  Every access is checked
against its block, and every block comes from `malloc` with anything in it.

On the strings the blocks hold they do what the functions on lists do (`trimIn_str`,
`splitCsvArrayIn_strs`, `joinStringsIn_strs`); so no access is outside, and joining what was split,
by a comma with or without blanks after it, splits to the same again (`comma_lists`).
-/
import ReproVM.Util
import ReproVM.Lib.Block
import Mathlib.Data.List.Forall2

namespace ReproVM

open Bytes (ascii pieces strip Tight)
open Lib (Block)
open Lib.Block (StrAt)

/-! ## 1. `trim` -/

/-- The loop over the blanks at the end; `len` is the length of the string. -/
def cutBlanks (b : Block) : Nat → Option Block
  | 0 => some b
  | len + 1 => do
    let c ← b.load len
    if isBlank c then
      let b ← b.store len 0
      cutBlanks b len
    else some b

/-- `if (p != s) memmove(s, p, strlen(p) + 1)` -/
def moveToFront (b : Block) (p : Nat) : Option Block :=
  if p ≠ 0 then do
    let n ← b.strlen p
    b.memmove p (n + 1)
  else some b

def trimIn (b : Block) : Option Block := do
  let p ← b.findIdx? fun c => ¬(c ≠ 0 ∧ isBlank c)
  let b ← moveToFront b p
  let len ← b.strlen 0
  cutBlanks b len

variable {b : Block} {s sep : Bytes}

theorem cutBlanks_str (h : StrAt b 0 s) : ∃ b', cutBlanks b s.length = some b' ∧
    StrAt b' 0 (s.rdropWhile isBlank) := by
  induction s using List.reverseRecOn generalizing b with
  | nil => exact ⟨b, rfl, h⟩
  | append_singleton s c ih =>
    have hload : b.load s.length = some c := by
      have := (StrAt.drop h).load_cons
      rwa [Nat.zero_add] at this
    have hlt := h.lt_length
    rw [List.length_append, List.length_singleton, Nat.zero_add] at hlt
    rw [List.length_append, List.length_singleton, cutBlanks, hload]
    by_cases hc : isBlank c
    · have hcut : StrAt (b.set s.length 0) 0 s := by
        obtain ⟨hz, rest, hb⟩ := h
        rw [List.drop_zero] at hb
        refine ⟨fun hm => hz (List.mem_append_left _ hm), 0 :: rest, ?_⟩
        rw [List.drop_zero, hb, List.append_assoc, List.set_append_right _ _ (Nat.le_refl _),
          Nat.sub_self]
        rfl
      obtain ⟨b', hrun, hb'⟩ := ih hcut
      refine ⟨b', ?_, ?_⟩
      · rw [← hrun]
        simp [hc, Lib.Block.store_eq (show s.length < b.length by omega)]
      · rwa [List.rdropWhile_concat_pos _ _ _ hc]
    · refine ⟨b, by simp [hc], ?_⟩
      rwa [List.rdropWhile_concat_neg _ _ _ hc]

/-- **`trim` in place.** -/
theorem trimIn_str (h : StrAt b 0 s) : ∃ b', trimIn b = some b' ∧ StrAt b' 0 (trim s) := by
  have hskip : b.findIdx? (fun c => ¬(c ≠ 0 ∧ isBlank c)) = some (s.takeWhile isBlank).length := by
    obtain ⟨hz, rest, hb⟩ := h
    rw [List.drop_zero] at hb
    have hpred : (fun c : UInt8 => !decide (¬(c ≠ 0 ∧ isBlank c = true))) = isBlank := by
      funext c
      by_cases hc : c = 0
      · subst hc
        decide
      · simp [hc]
    rw [hb, Lib.Block.findIdx?_str (by simp), hpred]
  have hsplit : s = s.takeWhile isBlank ++ s.dropWhile isBlank :=
    List.takeWhile_append_dropWhile.symm
  have hmoved : ∃ b₁, moveToFront b (s.takeWhile isBlank).length = some b₁ ∧
      StrAt b₁ 0 (s.dropWhile isBlank) := by
    rw [hsplit] at h
    have hat := h.drop
    rw [Nat.zero_add] at hat
    rw [moveToFront]
    split
    · obtain ⟨b₁, hrun, -, hb₁⟩ := hat.memmove
      refine ⟨b₁, ?_, hb₁⟩
      rw [hat.strlen]
      exact hrun
    · rename_i hzero
      rw [not_not] at hzero
      rw [hzero] at hat
      exact ⟨b, rfl, hat⟩
  obtain ⟨b₁, hrun, hb₁⟩ := hmoved
  obtain ⟨b₂, hcut, hb₂⟩ := cutBlanks_str hb₁
  refine ⟨b₂, ?_, hb₂⟩
  rw [trimIn, hskip, Option.bind_eq_bind, Option.bind_some, hrun, Option.bind_eq_bind,
    Option.bind_some, hb₁.strlen]
  exact hcut

/-! ## 2. `split_csv_array` -/

/-- `arr`, with its size in memory, `capacity` and `count`. -/
structure TokenArray where
  cells : Nat → Block
  size : Nat
  capacity : Nat
  count : Nat

/-- `if (count >= capacity)`: the array doubles. -/
def TokenArray.grow (a : TokenArray) : TokenArray :=
  if a.capacity ≤ a.count then { a with capacity := a.capacity * 2, size := a.capacity * 2 } else a

/-- `arr[count++] = token` -/
def TokenArray.append (a : TokenArray) (token : Block) : Option TokenArray :=
  if a.count < a.size then
    some { a with cells := Function.update a.cells a.count token, count := a.count + 1 }
  else none

/-- The `len` bytes at `p`, trimmed in a buffer of their own. -/
def cutToken (garbage : Nat → UInt8) (copy : Block) (p len : Nat) : Option Block := do
  let token ← (Block.malloc garbage (len + 1)).memcpy copy p len
  let token ← token.store len 0
  trimIn token

/-- An empty token is dropped. -/
def keepToken (a : TokenArray) (token : Block) : Option TokenArray := do
  let n ← token.strlen 0
  if 0 < n then a.grow.append token else some a

/-- The loop, from `p` on.  The first argument bounds its passes. -/
def splitCsvLoopIn (garbage : Nat → Nat → UInt8) (copy : Block) :
    Nat → Nat → TokenArray → Option TokenArray
  | 0, _, _ => none
  | fuel + 1, p, a => do
    let c ← copy.load p
    if c = 0 then some a
    else
      match ← copy.strchr p 44 with
      | none => do
        let len ← copy.strlen p
        let token ← cutToken (garbage p) copy p len
        keepToken a token
      | some len => do
        let token ← cutToken (garbage p) copy p len
        let a ← keepToken a token
        splitCsvLoopIn garbage copy fuel (p + len + 1) a

/-- What `malloc` finds in the blocks it gives: the copy, the token cut at a place, the array. -/
structure SplitMemory where
  copy : Nat → UInt8
  token : Nat → Nat → UInt8
  cells : Nat → Block

def splitCsvArrayIn (m : SplitMemory) (line : Block) : Option (List Block) := do
  let copy ← line.strdup m.copy
  let a ← splitCsvLoopIn m.token copy copy.length 0 ⟨m.cells, 8, 8, 0⟩
  return (List.range a.count).map a.cells

/-- Blocks and the strings they hold. -/
def Strs (bs : List Block) (xs : List Bytes) : Prop := List.Forall₂ (fun b s => StrAt b 0 s) bs xs

namespace TokenArray

/-- An array whose cells in use hold strings. -/
structure Holds (a : TokenArray) (xs : List Bytes) : Prop where
  size : a.size = a.capacity
  pos : 0 < a.capacity
  le : a.count ≤ a.capacity
  strs : Strs ((List.range a.count).map a.cells) xs

variable {a : TokenArray} {xs : List Bytes} {token : Block}

/-- There is a cell for one more. -/
theorem Holds.grow (h : a.Holds xs) : a.grow.Holds xs ∧ a.grow.count < a.grow.size := by
  obtain ⟨hsize, hpos, hle, hstrs⟩ := h
  rw [TokenArray.grow]
  split
  · refine ⟨⟨rfl, ?_, ?_, hstrs⟩, ?_⟩ <;> dsimp only <;> omega
  · exact ⟨⟨hsize, hpos, hle, hstrs⟩, by omega⟩

theorem Holds.append (h : a.Holds xs) (hlt : a.count < a.size) (ht : StrAt token 0 s) :
    ∃ a', a.append token = some a' ∧ a'.Holds (xs ++ [s]) := by
  refine ⟨_, if_pos hlt, h.size, h.pos, ?_, ?_⟩
  · rw [h.size] at hlt
    exact hlt
  · dsimp only
    rw [Lib.map_range_update]
    exact List.rel_append h.strs (List.Forall₂.cons ht List.Forall₂.nil)

end TokenArray

variable {copy : Block} {p : Nat} {a : TokenArray} {xs : List Bytes}

/-- **A token**, whatever was in its buffer. -/
theorem cutToken_str {t : Bytes} (h : StrAt copy p (s ++ t)) (garbage : Nat → UInt8) :
    ∃ token, cutToken garbage copy p s.length = some token ∧ StrAt token 0 (trim s) := by
  have hz : 0 ∉ s := fun hm => h.notMem (List.mem_append_left _ hm)
  have hcopy := h.memcpy (d := Block.malloc garbage (s.length + 1)) (by simp)
  obtain ⟨c, hlast⟩ : ∃ c, (Block.malloc garbage (s.length + 1)).drop s.length = [c] :=
    List.length_eq_one_iff.mp (by simp)
  rw [hlast] at hcopy
  have hstr : StrAt (s ++ [0]) 0 s := StrAt.of_append hz []
  obtain ⟨token, htrim, ht⟩ := trimIn_str hstr
  refine ⟨token, ?_, ht⟩
  have hset : (s ++ [c]).set s.length 0 = s ++ [0] := by
    rw [List.set_append_right _ _ (Nat.le_refl _), Nat.sub_self]
    rfl
  rw [cutToken, hcopy, Option.bind_eq_bind, Option.bind_some, Block.store_eq (by simp), hset]
  exact htrim

theorem keepToken_str {token : Block} (ha : a.Holds xs) (ht : StrAt token 0 s) :
    ∃ a', keepToken a token = some a' ∧ a'.Holds (xs ++ [s].filter (· ≠ [])) := by
  rw [keepToken, ht.strlen, Option.bind_eq_bind, Option.bind_some]
  by_cases hs : s = []
  · subst hs
    exact ⟨a, by simp, by simpa using ha⟩
  · rw [if_pos (List.length_pos_iff.mpr hs), List.filter_cons_of_pos (by simpa using hs)]
    exact ha.grow.1.append ha.grow.2 ht

/-- **The loop** cuts at the commas, trims, and drops what is empty. -/
theorem splitCsvLoopIn_str (garbage : Nat → Nat → UInt8) {fuel : Nat} (ha : a.Holds xs)
    (h : StrAt copy p s) (hfuel : s.length < fuel) :
    ∃ a', splitCsvLoopIn garbage copy fuel p a = some a' ∧
      a'.Holds (xs ++ ((pieces 44 s).map trim).filter (· ≠ [])) := by
  induction fuel generalizing p a xs s with
  | zero => omega
  | succ fuel ih =>
    cases hs : s with
    | nil =>
      subst hs
      refine ⟨a, ?_, ?_⟩
      · rw [splitCsvLoopIn, h.load_zero]
        rfl
      · have hempty : ((pieces 44 []).map trim).filter (· ≠ []) = [] := by decide
        rwa [hempty, List.append_nil]
    | cons c r =>
      rw [← hs]
      have hc : c ≠ 0 := by
        rintro rfl
        exact h.notMem (hs ▸ List.mem_cons_self)
      have hload : copy.load p = some c := StrAt.load_cons (hs ▸ h)
      rw [splitCsvLoopIn, hload, Option.bind_eq_bind, Option.bind_some, if_neg hc]
      by_cases hcomma : 44 ∈ s
      · obtain ⟨x, y, rfl, hx⟩ := List.eq_append_cons_of_mem hcomma
        obtain ⟨token, hcut, ht⟩ := cutToken_str h (garbage p)
        obtain ⟨a₁, hkeep, ha₁⟩ := keepToken_str ha ht
        have hnext : StrAt copy (p + x.length + 1) y := by
          have := h.drop
          rw [← List.singleton_append] at this
          exact this.drop
        have hlen : y.length < fuel := by
          rw [List.length_append, List.length_cons] at hfuel
          omega
        obtain ⟨a', hrun, ha'⟩ := ih ha₁ hnext hlen
        refine ⟨a', ?_, ?_⟩
        · rw [h.strchr_append hx, Option.bind_eq_bind, Option.bind_some]
          simp only [hcut, hkeep, Option.bind_eq_bind, Option.bind_some]
          exact hrun
        · rw [Bytes.pieces_append_sep hx, List.map_cons, ← List.singleton_append,
            List.filter_append, ← List.append_assoc]
          exact ha'
      · have hwhole : StrAt copy p (s ++ []) := by rwa [List.append_nil]
        obtain ⟨token, hcut, ht⟩ := cutToken_str hwhole (garbage p)
        obtain ⟨a', hkeep, ha'⟩ := keepToken_str ha ht
        refine ⟨a', ?_, ?_⟩
        · rw [h.strchr_of_notMem hcomma (by decide), Option.bind_eq_bind, Option.bind_some]
          simp only [h.strlen, hcut, Option.bind_eq_bind, Option.bind_some]
          exact hkeep
        · rwa [Bytes.pieces_of_notMem hcomma]

/-- **`split_csv_array` in memory.** -/
theorem splitCsvArrayIn_strs (m : SplitMemory) {line : Block} (h : StrAt line 0 s) :
    ∃ items, splitCsvArrayIn m line = some items ∧ Strs items (splitCsvArray s) := by
  have hcopy : StrAt (s ++ [0]) 0 s := StrAt.of_append h.notMem []
  have hempty : TokenArray.Holds ⟨m.cells, 8, 8, 0⟩ [] :=
    ⟨rfl, Nat.succ_pos 7, Nat.zero_le 8, List.Forall₂.nil⟩
  have hfuel : s.length < (s ++ [0]).length := by simp
  obtain ⟨a, hrun, ha⟩ := splitCsvLoopIn_str m.token hempty hcopy hfuel
  refine ⟨_, ?_, splitCsvArray_eq s ▸ ha.strs⟩
  rw [splitCsvArrayIn, h.strdup, Option.bind_eq_bind, Option.bind_some, hrun]
  rfl

/-! ## 3. `join_strings` -/

/-- The loop: `strcat` of a part, and of the separator behind all but the last. -/
def joinLoopIn (sep : Block) : List Block → Block → Option Block
  | [], res => some res
  | part :: parts, res => do
    let res ← res.strcat part
    if parts = [] then some res
    else
      let res ← res.strcat sep
      joinLoopIn sep parts res

/-- The sum of the `strlen`s. -/
def sumLengths : List Block → Option Nat
  | [] => some 0
  | part :: parts => do
    let n ← part.strlen 0
    let total ← sumLengths parts
    return n + total

def joinStringsIn (garbage : Nat → UInt8) (parts : List Block) (sep : Block) : Option Block :=
  if parts.length = 0 then Block.strdup garbage [0]
  else do
    let seplen ← sep.strlen 0
    let total ← sumLengths parts
    let res := Block.malloc garbage (total + seplen * (parts.length - 1) + 1)
    let res ← res.store 0 0
    joinLoopIn sep parts res

variable {parts : List Block} {sepBlock res : Block}

theorem sumLengths_strs (h : Strs parts xs) :
    sumLengths parts = some (xs.map List.length).sum := by
  induction h with
  | nil => rfl
  | cons hb _ ih =>
    rw [sumLengths, hb.strlen, Option.bind_eq_bind, Option.bind_some, ih]
    rfl

/-- What `join_strings` allocates, less the NUL. -/
theorem joinStrings_length_eq (xs : List Bytes) (sep : Bytes) :
    (joinStrings xs sep).length = (xs.map List.length).sum + sep.length * (xs.length - 1) := by
  induction xs with
  | nil => rfl
  | cons x xs ih =>
    cases xs with
    | nil => simp [joinStrings]
    | cons y ys =>
      rw [joinStrings, List.length_append, List.length_append, ih]
      simp only [List.map_cons, List.sum_cons, List.length_cons, Nat.add_sub_cancel]
      rw [Nat.mul_succ]
      omega

/-- **The loop** fills the buffer up to what is left of the list. -/
theorem joinLoopIn_strs (h : Strs parts xs) (hsep : StrAt sepBlock 0 sep) (hres : StrAt res 0 s)
    (hroom : s.length + (joinStrings xs sep).length < res.length) :
    ∃ res', joinLoopIn sepBlock parts res = some res' ∧ res'.length = res.length ∧
      StrAt res' 0 (s ++ joinStrings xs sep) := by
  induction h generalizing s res with
  | nil => exact ⟨res, rfl, rfl, by simpa [joinStrings] using hres⟩
  | @cons part x parts xs hx hrest ih =>
    cases hrest with
    | nil =>
      obtain ⟨res₁, hcat, hlen, hres₁⟩ := hres.strcat hx hroom
      exact ⟨res₁, by simp [joinLoopIn, hcat], hlen, hres₁⟩
    | @cons part' y parts' ys hy hys =>
      have hjoin : joinStrings (x :: y :: ys) sep = x ++ sep ++ joinStrings (y :: ys) sep := rfl
      rw [hjoin] at hroom ⊢
      rw [List.length_append, List.length_append] at hroom
      obtain ⟨res₁, hcat₁, hlen₁, hres₁⟩ := hres.strcat hx (by omega)
      obtain ⟨res₂, hcat₂, hlen₂, hres₂⟩ :=
        hres₁.strcat hsep (by rw [List.length_append]; omega)
      obtain ⟨res', hrun, hlen, hres'⟩ :=
        ih hres₂ (by rw [List.length_append, List.length_append]; omega)
      refine ⟨res', ?_, by omega, ?_⟩
      · rw [joinLoopIn, hcat₁, Option.bind_eq_bind, Option.bind_some, if_neg (by simp), hcat₂]
        exact hrun
      · simpa only [List.append_assoc] using hres'

/-- **`join_strings` in memory** fills its buffer to the last byte and not beyond. -/
theorem joinStringsIn_strs (garbage : Nat → UInt8) (h : Strs parts xs)
    (hsep : StrAt sepBlock 0 sep) :
    joinStringsIn garbage parts sepBlock = some (joinStrings xs sep ++ [0]) ∧
      0 ∉ joinStrings xs sep := by
  have hlen : parts.length = xs.length := h.length_eq
  rw [joinStringsIn]
  split
  · rename_i hzero
    obtain rfl : xs = [] := List.length_eq_zero_iff.mp (hlen ▸ hzero)
    have hnul : StrAt [0] 0 [] := StrAt.of_append List.not_mem_nil []
    exact ⟨hnul.strdup garbage, List.not_mem_nil⟩
  · rw [hsep.strlen, Option.bind_eq_bind, Option.bind_some, sumLengths_strs h,
      Option.bind_eq_bind, Option.bind_some, hlen, ← joinStrings_length_eq]
    have hstart :
        StrAt ((Block.malloc garbage ((joinStrings xs sep).length + 1)).set 0 0) 0 [] := by
      obtain ⟨c, r, hcr⟩ := List.exists_cons_of_length_pos
        (l := Block.malloc garbage ((joinStrings xs sep).length + 1)) (by simp)
      rw [hcr]
      exact StrAt.of_append List.not_mem_nil r
    obtain ⟨res, hrun, hsize, hres⟩ := joinLoopIn_strs h hsep hstart (by simp)
    dsimp only
    rw [Block.store_eq (by simp), Option.bind_some, hrun]
    rw [List.length_set, Block.length_malloc] at hsize
    exact ⟨congrArg some (hres.eq_of_length hsize), hres.notMem⟩

/-! ## 4. There and back -/

/-- Items that `split_csv_array` gives, joined by a comma and blanks. -/
theorem splitCsvArray_joinStrings (blanks : Bytes) (hb : ∀ c ∈ blanks, isBlank c)
    (h : ∀ x ∈ xs, x ≠ [] ∧ Tight isBlank x ∧ 44 ∉ x) :
    splitCsvArray (joinStrings xs (44 :: blanks)) = xs := by
  have hcomma : 44 ∉ blanks := fun hm => absurd (hb 44 hm) (by decide)
  rw [splitCsvArray_eq]
  induction xs with
  | nil =>
    rw [joinStrings]
    decide
  | cons x xs ih =>
    obtain ⟨hne, htight, hx⟩ := h x List.mem_cons_self
    have htrim : trim x = x := Bytes.strip_of_tight htight
    cases xs with
    | nil => simp [joinStrings, Bytes.pieces_of_notMem hx, htrim, hne]
    | cons y ys =>
      have hrest := ih fun z hz => h z (List.mem_cons_of_mem _ hz)
      obtain ⟨z, zs, hz⟩ := List.exists_cons_of_ne_nil
        (Bytes.pieces_ne_nil (d := 44) (s := joinStrings (y :: ys) (44 :: blanks)))
      have hblank : trim (blanks ++ z) = trim z := Bytes.strip_of_all_append hb
      rw [hz, List.map_cons] at hrest
      rw [joinStrings, List.append_assoc, List.cons_append, Bytes.pieces_append_sep hx,
        Bytes.pieces_append_left hcomma hz, List.map_cons, List.map_cons, htrim, hblank,
        List.filter_cons_of_pos (by simpa using hne), hrest]

/-- **Comma lists split and join back.**  The items are the pieces between the commas, stripped,
without the empty ones; joining strings, whatever they are, fills the buffer that was allocated
to its last byte; and the items joined by a comma, with or without a blank, split to the same
items. -/
theorem comma_lists {line : Block} (hline : StrAt line 0 s) (m m' : SplitMemory)
    (garbage : Nat → UInt8) :
    ∃ items, splitCsvArrayIn m line = some items ∧
      Strs items (((pieces 44 s).map (strip isBlank)).filter (· ≠ [])) ∧
      (∀ parts xs sepBlock sep, Strs parts xs → StrAt sepBlock 0 sep →
        joinStringsIn garbage parts sepBlock = some (joinStrings xs sep ++ [0])) ∧
      ∀ sepBlock sep, StrAt sepBlock 0 sep → sep = ascii "," ∨ sep = ascii ", " →
        ∃ joined again, joinStringsIn garbage items sepBlock = some joined ∧
          splitCsvArrayIn m' joined = some again ∧
          Strs again (((pieces 44 s).map (strip isBlank)).filter (· ≠ [])) := by
  have hcsv : ((pieces 44 s).map (strip isBlank)).filter (· ≠ []) = splitCsvArray s :=
    (splitCsvArray_eq s).symm
  rw [hcsv]
  obtain ⟨items, hsplit, hitems⟩ := splitCsvArrayIn_strs m hline
  refine ⟨items, hsplit, hitems,
    fun _ _ _ _ hparts hsep => (joinStringsIn_strs garbage hparts hsep).1, ?_⟩
  intro sepBlock sep hsep hor
  obtain ⟨hjoin, hnul⟩ := joinStringsIn_strs garbage hitems hsep
  have hprop : ∀ x ∈ splitCsvArray s, x ≠ [] ∧ Tight isBlank x ∧ 44 ∉ x := fun x hx =>
    ⟨(mem_splitCsvArray hx).1, (mem_splitCsvArray hx).2.1, (mem_splitCsvArray hx).2.2.1⟩
  have hback : splitCsvArray (joinStrings (splitCsvArray s) sep) = splitCsvArray s := by
    rcases hor with rfl | rfl
    · exact splitCsvArray_joinStrings [] (by simp) hprop
    · exact splitCsvArray_joinStrings [32] (by decide) hprop
  obtain ⟨again, hagain, hstrs⟩ := splitCsvArrayIn_strs m' (StrAt.of_append hnul [])
  refine ⟨_, again, hjoin, hagain, ?_⟩
  rwa [hback] at hstrs

/-- Blocks as they may come from the heap. -/
def usedMemory : SplitMemory := ⟨fun _ => 7, fun p i => UInt8.ofNat (p + i), fun _ => [7]⟩

theorem comma_lists_blanks :
    ∃ items, splitCsvArrayIn usedMemory (ascii " a, ,b\t," ++ [0, 7]) = some items ∧
      Strs items [ascii "a", ascii "b"] ∧
      ∃ joined again, joinStringsIn (fun _ => 7) items (ascii ", " ++ [0]) = some joined ∧
        splitCsvArrayIn usedMemory joined = some again ∧ Strs again [ascii "a", ascii "b"] := by
  have hline : StrAt (ascii " a, ,b\t," ++ [0, 7]) 0 (ascii " a, ,b\t,") :=
    StrAt.of_append (by decide) [7]
  obtain ⟨items, hsplit, hitems, -, hjoin⟩ :=
    comma_lists hline usedMemory usedMemory (fun _ => 7)
  have hxs : ((pieces 44 (ascii " a, ,b\t,")).map (strip isBlank)).filter (· ≠ [])
      = [ascii "a", ascii "b"] := by decide
  rw [hxs] at hitems hjoin
  exact ⟨items, hsplit, hitems, hjoin _ _ (StrAt.of_append (by decide) []) (.inr rfl)⟩

end ReproVM
