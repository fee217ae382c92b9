/-
# C strings in a block of memory

A block of memory is the list of its cells.  An access outside the block has no result, so a
computation that has one stayed inside.  `StrAt b i s` is that the block holds the string `s` at
`i`, with its NUL; of the cells behind it nothing is said.  The string functions of the C library
are here as they go through the cells, each with the rule that tells what becomes of a string.

An array that is filled from the front is a function of the index with the number of cells in use.
-/
import Mathlib.Data.List.TakeWhile
import Mathlib.Logic.Function.Basic

namespace Lib

/-- A cell behind the last is the one that the array gains. -/
theorem map_range_update {α : Type*} (cells : Nat → α) (n : Nat) (x : α) :
    (List.range (n + 1)).map (Function.update cells n x) = (List.range n).map cells ++ [x] := by
  rw [List.range_succ, List.map_append, List.map_singleton, Function.update_self]
  congr 1
  refine List.map_congr_left fun i hi => ?_
  rw [Function.update_of_ne (Nat.ne_of_lt (List.mem_range.mp hi))]

/-- The cells of a block. -/
abbrev Block := List UInt8

namespace Block

variable {b d src : Block} {i n : Nat} {s t cs : List UInt8} {c : UInt8}

/-! ## 1. Cells -/

def load (b : Block) (i : Nat) : Option UInt8 := b[i]?

def store (b : Block) (i : Nat) (c : UInt8) : Option Block :=
  if i < b.length then some (b.set i c) else none

/-- `n` cells from `i` on. -/
def loadAll (b : Block) (i n : Nat) : Option (List UInt8) :=
  if i + n ≤ b.length then some ((b.drop i).take n) else none

/-- Stores from `i` on, one after the other. -/
def storeAll (b : Block) (i : Nat) : List UInt8 → Option Block
  | [] => some b
  | c :: cs => do
    let b ← b.store i c
    b.storeAll (i + 1) cs

/-- A new block, with anything in it. -/
def malloc (garbage : Nat → UInt8) (n : Nat) : Block := (List.range n).map garbage

@[simp] theorem length_malloc (garbage : Nat → UInt8) (n : Nat) :
    (malloc garbage n).length = n := by simp [malloc]

theorem store_eq (h : i < b.length) (c : UInt8) : b.store i c = some (b.set i c) := if_pos h

/-- **Stores inside the block** replace the cells they cover. -/
theorem storeAll_eq (h : i + cs.length ≤ b.length) :
    b.storeAll i cs = some (b.take i ++ (cs ++ b.drop (i + cs.length))) := by
  induction cs generalizing b i with
  | nil => simp [storeAll]
  | cons c cs ih =>
    rw [List.length_cons] at h
    have hi : i < b.length := by omega
    have htake : (b.set i c).take (i + 1) = b.take i ++ [c] := by
      rw [List.take_add_one, List.take_set_of_le (Nat.le_refl i), List.getElem?_set_self hi]
      rfl
    have hdrop : (b.set i c).drop (i + 1 + cs.length) = b.drop (i + 1 + cs.length) :=
      List.drop_set_of_lt (by omega)
    rw [storeAll, store_eq hi]
    change storeAll (b.set i c) (i + 1) cs = _
    rw [ih (by rw [List.length_set]; omega), htake, hdrop, List.length_cons, List.append_assoc,
      List.singleton_append, Nat.add_right_comm]
    rfl

/-! ## 2. Strings -/

/-- The block holds the string at `i`. -/
def StrAt (b : Block) (i : Nat) (s : List UInt8) : Prop := 0 ∉ s ∧ ∃ rest, b.drop i = s ++ 0 :: rest

namespace StrAt

theorem notMem (h : StrAt b i s) : 0 ∉ s := h.1

theorem of_append (h : 0 ∉ s) (rest : List UInt8) : StrAt (s ++ 0 :: rest) 0 s := ⟨h, rest, rfl⟩

/-- The string and its NUL lie in the block. -/
theorem lt_length (h : StrAt b i s) : i + s.length < b.length := by
  obtain ⟨-, rest, hb⟩ := h
  have := congrArg List.length hb
  simp only [List.length_drop, List.length_append, List.length_cons] at this
  omega

/-- A string that fills its block. -/
theorem eq_of_length (h : StrAt b 0 s) (hlen : b.length = s.length + 1) : b = s ++ [0] := by
  obtain ⟨-, rest, hb⟩ := h
  rw [List.drop_zero] at hb
  rw [hb, List.length_append, List.length_cons] at hlen
  obtain rfl : rest = [] := List.length_eq_zero_iff.mp (by omega)
  exact hb

/-- A string from one of its bytes on. -/
theorem drop (h : StrAt b i (s ++ t)) : StrAt b (i + s.length) t := by
  obtain ⟨hz, rest, hb⟩ := h
  refine ⟨fun hm => hz (List.mem_append_right _ hm), rest, ?_⟩
  rw [← List.drop_drop, hb, List.append_assoc, List.drop_left]

theorem loadAll (h : StrAt b i (s ++ t)) : b.loadAll i s.length = some s := by
  have hlt := h.lt_length
  obtain ⟨-, rest, hb⟩ := h
  rw [List.length_append] at hlt
  rw [Block.loadAll, if_pos (by omega), hb, List.append_assoc, List.take_left]

/-- With its NUL. -/
theorem loadAll_succ (h : StrAt b i s) : b.loadAll i (s.length + 1) = some (s ++ [0]) := by
  have hlt := h.lt_length
  obtain ⟨-, rest, hb⟩ := h
  have hcells : s ++ 0 :: rest = (s ++ [0]) ++ rest := by simp
  have hlen : s.length + 1 = (s ++ [0]).length := by simp
  rw [Block.loadAll, if_pos (by omega), hb, hcells, hlen, List.take_left]

theorem load_zero (h : StrAt b i []) : b.load i = some 0 := by
  obtain ⟨-, rest, hb⟩ := h
  rw [Block.load, ← List.head?_drop, hb]
  rfl

theorem load_cons (h : StrAt b i (c :: s)) : b.load i = some c := by
  obtain ⟨-, rest, hb⟩ := h
  rw [Block.load, ← List.head?_drop, hb]
  rfl

end StrAt

/-- A scan that stops at the NUL at the latest. -/
theorem findIdx?_str {p : UInt8 → Bool} (hp : p 0 = true) (s rest : List UInt8) :
    (s ++ 0 :: rest).findIdx? p = some (s.takeWhile fun c => !p c).length := by
  induction s with
  | nil => simp [List.findIdx?_cons, hp]
  | cons c s ih =>
    rw [List.cons_append, List.findIdx?_cons, ih, List.takeWhile_cons]
    cases p c <;> simp

/-- `strlen(b + i)` -/
def strlen (b : Block) (i : Nat) : Option Nat := (b.drop i).findIdx? (· = 0)

theorem StrAt.strlen (h : StrAt b i s) : b.strlen i = some s.length := by
  obtain ⟨hz, rest, hb⟩ := h
  rw [Block.strlen, hb, findIdx?_str (by simp), List.takeWhile_eq_self_iff.mpr]
  intro c hc
  have hne : c ≠ 0 := fun h => hz (h ▸ hc)
  simp [hne]

/-- `strchr(b + i, c)`, as the distance from `i`; NULL is an inner `none`. -/
def strchr (b : Block) (i : Nat) (c : UInt8) : Option (Option Nat) := do
  let n ← (b.drop i).findIdx? fun x => x = c || x = 0
  let x ← b.load (i + n)
  return if x = c then some n else none

theorem StrAt.strchr_of_notMem (h : StrAt b i s) (hc : c ∉ s) (h0 : c ≠ 0) :
    b.strchr i c = some none := by
  have hnul := StrAt.load_zero (StrAt.drop (s := s) (t := []) (by simpa using h))
  have hz := h.notMem
  obtain ⟨-, rest, hb⟩ := h
  rw [Block.strchr, hb, findIdx?_str (by simp), List.takeWhile_eq_self_iff.mpr]
  · simp [hnul, Ne.symm h0]
  · intro x hx
    have hxc : x ≠ c := fun h => hc (h ▸ hx)
    have hx0 : x ≠ 0 := fun h => hz (h ▸ hx)
    simp [hxc, hx0]

theorem StrAt.strchr_append (h : StrAt b i (s ++ c :: t)) (hc : c ∉ s) :
    b.strchr i c = some (some s.length) := by
  have hat := StrAt.load_cons h.drop
  have hz := h.notMem
  obtain ⟨-, rest, hb⟩ := h
  have htake : ((s ++ c :: t).takeWhile fun x => !(decide (x = c) || decide (x = 0))) = s := by
    rw [List.takeWhile_append_of_pos, List.takeWhile_cons_of_neg (by simp), List.append_nil]
    intro x hx
    have hxc : x ≠ c := fun h => hc (h ▸ hx)
    have hx0 : x ≠ 0 := fun h => hz (h ▸ List.mem_append_left _ hx)
    simp [hxc, hx0]
  rw [Block.strchr, hb, findIdx?_str (by simp), htake]
  simp [hat]

/-! ## 3. Copies -/

/-- `memcpy(d, src + i, n)` -/
def memcpy (d src : Block) (i n : Nat) : Option Block := do
  let cs ← src.loadAll i n
  d.storeAll 0 cs

/-- `memmove(b, b + i, n)` -/
def memmove (b : Block) (i n : Nat) : Option Block := b.memcpy b i n

/-- `strcat(d, src)` -/
def strcat (d src : Block) : Option Block := do
  let n ← d.strlen 0
  let m ← src.strlen 0
  let cs ← src.loadAll 0 (m + 1)
  d.storeAll n cs

/-- `d = malloc(strlen(src) + 1)` and `memcpy` of all of it. -/
def strdup (garbage : Nat → UInt8) (src : Block) : Option Block := do
  let n ← src.strlen 0
  (malloc garbage (n + 1)).memcpy src 0 (n + 1)

theorem StrAt.memcpy (h : StrAt src i (s ++ t)) (hroom : s.length ≤ d.length) :
    d.memcpy src i s.length = some (s ++ d.drop s.length) := by
  rw [Block.memcpy, h.loadAll]
  change d.storeAll 0 s = _
  rw [storeAll_eq (by omega), List.take_zero, List.nil_append, Nat.zero_add]

theorem StrAt.memcpy_succ (h : StrAt src i s) (hroom : s.length < d.length) :
    d.memcpy src i (s.length + 1) = some (s ++ 0 :: d.drop (s.length + 1)) := by
  rw [Block.memcpy, h.loadAll_succ]
  change d.storeAll 0 (s ++ [0]) = _
  rw [storeAll_eq (by simp; omega)]
  simp

/-- A string is moved to the beginning of its block. -/
theorem StrAt.memmove (h : StrAt b i s) : ∃ b', b.memmove i (s.length + 1) = some b' ∧
    b'.length = b.length ∧ StrAt b' 0 s := by
  have hlt := h.lt_length
  refine ⟨_, h.memcpy_succ (by omega), ?_, StrAt.of_append h.notMem _⟩
  simp
  omega

theorem StrAt.strdup (h : StrAt src 0 s) (garbage : Nat → UInt8) :
    src.strdup garbage = some (s ++ [0]) := by
  rw [Block.strdup, h.strlen]
  change (malloc garbage (s.length + 1)).memcpy src 0 (s.length + 1) = _
  rw [h.memcpy_succ (by simp)]
  simp

/-- **`strcat`** needs the two strings and one NUL to fit. -/
theorem StrAt.strcat (hd : StrAt d 0 s) (hs : StrAt src 0 t)
    (hroom : s.length + t.length < d.length) :
    ∃ d', d.strcat src = some d' ∧ d'.length = d.length ∧ StrAt d' 0 (s ++ t) := by
  have hnul : (0 : UInt8) ∉ s ++ t := by
    rw [List.mem_append, not_or]
    exact ⟨hd.notMem, hs.notMem⟩
  have hfront : d.take s.length = s := by
    obtain ⟨-, rest, hb⟩ := hd
    rw [List.drop_zero] at hb
    rw [hb, List.take_left]
  refine ⟨s ++ t ++ 0 :: d.drop (s.length + t.length + 1), ?_, ?_, StrAt.of_append hnul _⟩
  · rw [Block.strcat, hd.strlen, hs.strlen]
    change (src.loadAll 0 (t.length + 1)).bind (d.storeAll s.length) = _
    rw [hs.loadAll_succ, Option.bind_some, storeAll_eq (by simp; omega), hfront]
    simp [Nat.add_assoc]
  · simp
    omega

end Block

end Lib
