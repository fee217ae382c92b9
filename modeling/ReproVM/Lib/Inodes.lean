/-
# Names and inodes

What processes that share a directory see of it: a name refers to an inode or to none, and an open
file is an inode, whatever its name refers to by now.  A `Disk` holds the entries of the directory
and what is in each inode; the inodes that were ever made are those below `next`, so an inode that
is made has no name and no stream yet.
-/
import Mathlib.Logic.Function.Basic

namespace Lib

/-! ## 1. The directory -/

variable {ν α : Type*}

structure Disk (ν α : Type*) where
  entry : ν → Option Nat
  inode : Nat → α
  next : Nat

namespace Disk

/-- No name. -/
def empty (a : α) : Disk ν α := ⟨fun _ => none, fun _ => a, 0⟩

def put (d : Disk ν α) (i : Nat) (a : α) : Disk ν α := { d with inode := Function.update d.inode i a }

variable {d : Disk ν α} {n m : ν} {i j : Nat} {a : α}

@[simp] theorem put_entry : (d.put i a).entry = d.entry := rfl

@[simp] theorem put_next : (d.put i a).next = d.next := rfl

@[simp] theorem put_self : (d.put i a).inode i = a := Function.update_self ..

theorem put_ne (h : j ≠ i) : (d.put i a).inode j = d.inode j := Function.update_of_ne h ..

/-- Names refer to inodes that were made. -/
def Ok (d : Disk ν α) : Prop := ∀ n i, d.entry n = some i → i < d.next

/-- The disk `d'` is `d` with a new file. -/
structure Made (d : Disk ν α) (n : ν) (a : α) (d' : Disk ν α) : Prop where
  entry_self : d'.entry n = some d.next
  entry_ne : ∀ m, m ≠ n → d'.entry m = d.entry m
  inode_self : d'.inode d.next = a
  inode_lt : ∀ i < d.next, d'.inode i = d.inode i
  next : d'.next = d.next + 1

/-- The names there were refer to what they referred to. -/
theorem Made.entry {d' : Disk ν α} (hd : d.Made n a d') (hn : d.entry n = none)
    (hm : d.entry m = some i) : d'.entry m = some i := by
  rw [hd.entry_ne m (by rintro rfl; simp [hn] at hm), hm]

theorem Made.put {d' : Disk ν α} (hd : d.Made n a d') (b : α) : d.Made n b (d'.put d.next b) where
  entry_self := hd.entry_self
  entry_ne := hd.entry_ne
  inode_self := put_self
  inode_lt i hi := by rw [put_ne (Nat.ne_of_lt hi), hd.inode_lt i hi]
  next := hd.next

variable [DecidableEq ν]

/-- `open` with `O_CREAT`: the inode of the name, or a new one with `a` in it. -/
def create (d : Disk ν α) (n : ν) (a : α) : Nat × Disk ν α :=
  match d.entry n with
  | some i => (i, d)
  | none => (d.next, ⟨Function.update d.entry n (some d.next), Function.update d.inode d.next a,
      d.next + 1⟩)

def unlink (d : Disk ν α) (n : ν) : Disk ν α := { d with entry := Function.update d.entry n none }

/-- `rename` of a name that refers to `i`. -/
def rename (d : Disk ν α) (n m : ν) (i : Nat) : Disk ν α :=
  { d with entry := Function.update (Function.update d.entry n none) m (some i) }

@[simp] theorem unlink_inode : (d.unlink n).inode = d.inode := rfl

@[simp] theorem unlink_next : (d.unlink n).next = d.next := rfl

theorem unlink_entry : (d.unlink n).entry m = if m = n then none else d.entry m :=
  Function.update_apply ..

@[simp] theorem rename_inode : (d.rename n m i).inode = d.inode := rfl

@[simp] theorem rename_next : (d.rename n m i).next = d.next := rfl

@[simp] theorem rename_target : (d.rename n m i).entry m = some i := Function.update_self ..

theorem rename_entry {k : ν} (h : k ≠ m) :
    (d.rename n m i).entry k = if k = n then none else d.entry k :=
  (Function.update_of_ne h ..).trans (Function.update_apply ..)

theorem create_some (h : d.entry n = some i) : d.create n a = (i, d) := by
  rw [create, h]

theorem create_none (h : d.entry n = none) :
    d.create n a = (d.next, ⟨Function.update d.entry n (some d.next),
      Function.update d.inode d.next a, d.next + 1⟩) := by
  rw [create, h]

/-- The name refers to the inode that is returned. -/
@[simp] theorem create_self : (d.create n a).2.entry n = some (d.create n a).1 := by
  cases h : d.entry n with
  | none =>
    rw [create_none h]
    exact Function.update_self ..
  | some i => rw [create_some h, h]

theorem create_entry (h : m ≠ n) : (d.create n a).2.entry m = d.entry m := by
  cases hn : d.entry n with
  | none =>
    rw [create_none hn]
    exact Function.update_of_ne h ..
  | some i => rw [create_some hn]

/-- The inodes there were keep what is in them. -/
theorem create_inode (h : i < d.next) : (d.create n a).2.inode i = d.inode i := by
  cases hn : d.entry n with
  | none =>
    rw [create_none hn]
    exact Function.update_of_ne (Nat.ne_of_lt h) ..
  | some j => rw [create_some hn]

/-- An inode is as it was, or it is the new one. -/
theorem create_inode_or : (d.create n a).2.inode i = d.inode i ∨ (d.create n a).2.inode i = a := by
  cases hn : d.entry n with
  | none =>
    rw [create_none hn]
    dsimp only
    rw [Function.update_apply]
    split
    · exact .inr rfl
    · exact .inl rfl
  | some j => exact .inl (by rw [create_some hn])

theorem create_fst (h : d.entry n = none) : (d.create n a).1 = d.next := by
  rw [create_none h]

theorem made_create (h : d.entry n = none) (a : α) : d.Made n a (d.create n a).2 where
  entry_self := by
    rw [create_self, create_fst h]
  entry_ne _ hm := create_entry hm
  inode_self := by
    rw [create_none h]
    exact Function.update_self ..
  inode_lt _ hi := create_inode hi
  next := by
    rw [create_none h]

theorem Made.ok {d' : Disk ν α} (hd : d.Made n a d') (h : d.Ok) : d'.Ok := by
  intro m i hm
  rw [hd.next]
  by_cases hmn : m = n
  · rw [hmn, hd.entry_self] at hm
    exact Option.some.inj hm ▸ Nat.lt_succ_self _
  · rw [hd.entry_ne m hmn] at hm
    exact Nat.lt_succ_of_lt (h m i hm)

theorem next_le_create : d.next ≤ (d.create n a).2.next := by
  cases hn : d.entry n with
  | none =>
    rw [create_none hn]
    exact Nat.le_succ _
  | some j => simp [create_some hn]

theorem Ok.create_lt (h : d.Ok) : (d.create n a).1 < (d.create n a).2.next := by
  cases hn : d.entry n with
  | none =>
    rw [create_none hn]
    exact Nat.lt_succ_self _
  | some j =>
    rw [create_some hn]
    exact h n j hn

theorem Ok.create (h : d.Ok) : (d.create n a).2.Ok := by
  intro m i hm
  by_cases hmn : m = n
  · subst hmn
    rw [create_self] at hm
    exact Option.some.inj hm ▸ h.create_lt
  · rw [create_entry hmn] at hm
    exact Nat.lt_of_lt_of_le (h m i hm) next_le_create

theorem Ok.unlink (h : d.Ok) : (d.unlink n).Ok := by
  intro m i hm
  rw [unlink_entry] at hm
  split at hm
  · cases hm
  · exact h m i hm

theorem Ok.rename (h : d.Ok) (hi : i < d.next) : (d.rename n m i).Ok := by
  intro k j hk
  by_cases hkm : k = m
  · subst hkm
    rw [rename_target] at hk
    exact Option.some.inj hk ▸ hi
  · rw [rename_entry hkm] at hk
    split at hk
    · cases hk
    · exact h k j hk

end Disk

/-! ## 2. What one process has for itself -/

variable {W β : Type*}

/-- No two processes have the same thing. -/
def Exclusive (f : W → Option β) : Prop := ∀ w w' b, f w = some b → f w' = some b → w = w'

/-- A process keeps what it has, gives it up, or takes what nobody has. -/
theorem Exclusive.update [DecidableEq W] {f : W → Option β} (h : Exclusive f) {w : W} {x : Option β}
    (hx : ∀ b, x = some b → f w = some b ∨ ∀ w', f w' ≠ some b) :
    Exclusive (Function.update f w x) := by
  have hother : ∀ u b, u ≠ w → f u = some b → x = some b → False := by
    intro u b hu hb hxb
    rcases hx b hxb with hw | hnone
    · exact hu (h u w b hb hw)
    · exact hnone u hb
  intro u u' b hb hb'
  rw [Function.update_apply] at hb hb'
  split at hb <;> split at hb'
  · simp_all
  · rename_i hu'
    exact (hother u' b hu' hb' hb).elim
  · rename_i hu _
    exact (hother u b hu hb hb').elim
  · exact h u u' b hb hb'

end Lib
