/-
# Stores that run at the same time

The two store functions as sequences of file-system steps, for any number of workers: hash the
source, look whether the object is there, open the target (the object itself for a store from a
file, `<object>.tmp` for one from memory), write a block, close, rename.  An open stream is an
inode and an offset, so a worker keeps writing to a file whose name has been given away.

A store from a file makes the object and then fills it; who looks in between takes it for the
object.  Where no worker finds an object that is not complete, or opens a target that is there,
every hash that was returned names a complete object from then on.
-/
import ReproVM.Cas
import ReproVM.Lib.Inodes
import ReproVM.Lib.Trans

namespace ReproVM

open Bytes (ascii)
open Lib (Disk Exclusive Run)

variable {W : Type} [DecidableEq W]

/-! ## 1. Workers -/

inductive StoreKind
  | memory
  | file
deriving DecidableEq

/-- One call, with the content it stores. -/
structure StoreCall where
  kind : StoreKind
  data : Bytes

namespace StoreCall

def object (c : StoreCall) : Bytes := objectFile (blobHash c.data)

def tmp (c : StoreCall) : Bytes := c.object ++ ascii ".tmp"

/-- What the call opens for writing. -/
def target (c : StoreCall) : Bytes :=
  match c.kind with
  | .memory => c.tmp
  | .file => c.object

end StoreCall

/-- Where a worker is. -/
inductive StorePc
  | idle
  /-- before `file_exists` -/
  | hashed (c : StoreCall)
  /-- before `fopen(target, "wb")` -/
  | opening (c : StoreCall)
  /-- the stream is inode `i`; `k` bytes are written -/
  | writing (c : StoreCall) (i k : Nat)
  /-- before `rename` -/
  | moving (c : StoreCall)
  /-- before the `unlink` after a `rename` that failed -/
  | removing (c : StoreCall)

/-- The directory, where the workers are, and the contents whose hash a call has returned. -/
structure StoreState (W : Type) where
  disk : Disk Bytes Bytes
  pc : W → StorePc
  returned : List Bytes

/-- An empty store. -/
def StoreState.init : StoreState W := ⟨Disk.empty [], fun _ => .idle, []⟩

def StoreState.goto (s : StoreState W) (w : W) (p : StorePc) : StoreState W :=
  { s with pc := Function.update s.pc w p }

def StoreState.withDisk (s : StoreState W) (d : Disk Bytes Bytes) : StoreState W :=
  { s with disk := d }

/-- The hash of `data` is returned. -/
def StoreState.ret (s : StoreState W) (data : Bytes) : StoreState W :=
  { s with returned := data :: s.returned }

@[simp] theorem StoreState.goto_disk (s : StoreState W) (w : W) (p : StorePc) :
    (s.goto w p).disk = s.disk := rfl

@[simp] theorem StoreState.goto_self (s : StoreState W) (w : W) (p : StorePc) :
    (s.goto w p).pc w = p := Function.update_self ..

theorem StoreState.goto_ne (s : StoreState W) {w u : W} (h : u ≠ w) (p : StorePc) :
    (s.goto w p).pc u = s.pc u := Function.update_of_ne h ..

@[simp] theorem StoreState.goto_goto (s : StoreState W) (w : W) (p q : StorePc) :
    (s.goto w p).goto w q = s.goto w q := by
  simp [StoreState.goto]

@[simp] theorem StoreState.withDisk_goto (s : StoreState W) (d : Disk Bytes Bytes) (w : W)
    (p : StorePc) : (s.withDisk d).goto w p = (s.goto w p).withDisk d := rfl

omit [DecidableEq W] in
@[simp] theorem StoreState.withDisk_withDisk (s : StoreState W) (d d' : Disk Bytes Bytes) :
    (s.withDisk d).withDisk d' = s.withDisk d' := rfl

omit [DecidableEq W] in
@[simp] theorem StoreState.withDisk_disk (s : StoreState W) (d : Disk Bytes Bytes) :
    (s.withDisk d).disk = d := rfl

/-- A write at an offset; a gap that it leaves reads as zeros. -/
def writeAt (file : Bytes) (k : Nat) (block : Bytes) : Bytes :=
  file.take k ++ List.replicate (k - file.length) 0 ++ block ++ file.drop (k + block.length)

inductive StoreEvent (W : Type)
  | start (w : W) (c : StoreCall)
  | look (w : W)
  | fopen (w : W)
  | fwrite (w : W) (n : Nat)
  | fclose (w : W)
  | rename (w : W)
  | unlink (w : W)

/-- One step of one worker. -/
inductive StoreStep : StoreState W → StoreEvent W → StoreState W → Prop
  | start {s : StoreState W} {w : W} (h : s.pc w = .idle) (c : StoreCall) :
      StoreStep s (.start w c) (s.goto w (.hashed c))
  | found {s : StoreState W} {w : W} {c : StoreCall} {i : Nat} (h : s.pc w = .hashed c)
      (hi : s.disk.entry c.object = some i) :
      StoreStep s (.look w) ((s.goto w .idle).ret c.data)
  | missing {s : StoreState W} {w : W} {c : StoreCall} (h : s.pc w = .hashed c)
      (hi : s.disk.entry c.object = none) : StoreStep s (.look w) (s.goto w (.opening c))
  | fopen {s : StoreState W} {w : W} {c : StoreCall} (h : s.pc w = .opening c) :
      -- `"wb"` empties a file that is there
      StoreStep s (.fopen w)
        ((s.goto w (.writing c (s.disk.create c.target []).1 0)).withDisk
          ((s.disk.create c.target []).2.put (s.disk.create c.target []).1 []))
  | fwrite {s : StoreState W} {w : W} {c : StoreCall} {i k : Nat} (h : s.pc w = .writing c i k)
      {n : Nat} (hn : 0 < n) (hk : k + n ≤ c.data.length) :
      StoreStep s (.fwrite w n)
        ((s.goto w (.writing c i (k + n))).withDisk
          (s.disk.put i (writeAt (s.disk.inode i) k ((c.data.drop k).take n))))
  | closeTmp {s : StoreState W} {w : W} {c : StoreCall} {i : Nat}
      (h : s.pc w = .writing c i c.data.length) (hc : c.kind = .memory) :
      StoreStep s (.fclose w) (s.goto w (.moving c))
  | closeObject {s : StoreState W} {w : W} {c : StoreCall} {i : Nat}
      (h : s.pc w = .writing c i c.data.length) (hc : c.kind = .file) :
      StoreStep s (.fclose w) ((s.goto w .idle).ret c.data)
  | rename {s : StoreState W} {w : W} {c : StoreCall} {i : Nat} (h : s.pc w = .moving c)
      (hi : s.disk.entry c.tmp = some i) :
      StoreStep s (.rename w)
        (((s.goto w .idle).withDisk (s.disk.rename c.tmp c.object i)).ret c.data)
  | renameFails {s : StoreState W} {w : W} {c : StoreCall} (h : s.pc w = .moving c)
      (hi : s.disk.entry c.tmp = none) : StoreStep s (.rename w) (s.goto w (.removing c))
  | unlink {s : StoreState W} {w : W} {c : StoreCall} (h : s.pc w = .removing c) :
      StoreStep s (.unlink w) ((s.goto w .idle).withDisk (s.disk.unlink c.tmp))

/-- The object of a content is there, with all of it. -/
def Complete (d : Disk Bytes Bytes) (data : Bytes) : Prop :=
  ∃ i, d.entry (objectFile (blobHash data)) = some i ∧ d.inode i = data

/-- What no other worker spoils: who finds an object finds it complete, and who opens a target
makes it. -/
def StoreEvent.Apart (s : StoreState W) : StoreEvent W → Prop
  | .look w => ∀ c i, s.pc w = .hashed c → s.disk.entry c.object = some i → s.disk.inode i = c.data
  | .fopen w => ∀ c, s.pc w = .opening c → s.disk.entry c.target = none
  | _ => True

/-- The contents of the calls of a run. -/
def storedContents (tr : List (StoreEvent W)) : Set Bytes :=
  {data | ∃ w c, .start w c ∈ tr ∧ c.data = data}

/-! ## 2. One write after the other -/

theorem writeAt_take {data : Bytes} {k n : Nat} (hk : k + n ≤ data.length) :
    writeAt (data.take k) k ((data.drop k).take n) = data.take (k + n) := by
  have hlen : (data.take k).length = k := by rw [List.length_take, Nat.min_eq_left (by omega)]
  have hblock : ((data.drop k).take n).length = n := by
    rw [List.length_take, List.length_drop, Nat.min_eq_left (by omega)]
  have hrest : (data.take k).drop (k + n) = [] := List.drop_of_length_le (by omega)
  rw [writeAt, hlen, hblock, Nat.sub_self, List.replicate_zero, List.append_nil,
    List.take_of_length_le (Nat.le_of_eq hlen), hrest, List.append_nil, ← List.take_add]

/-- What is not all of a content is another. -/
theorem take_ne_self {data : Bytes} {k n : Nat} (hn : 0 < n) (hk : k + n ≤ data.length) :
    data.take k ≠ data := by
  intro h
  have hlen := congrArg List.length h
  rw [List.length_take] at hlen
  omega

/-! ## 3. Names -/

theorem IsHash.objectFile_length {h : Bytes} (hh : IsHash h) :
    (objectFile h).length = (objectFile []).length + 64 := by
  have := hh.length
  simp only [objectFile, List.length_append, List.length_cons, List.length_take, List.length_drop,
    List.take_nil, List.drop_nil, List.length_nil]
  omega

theorem objectFile_inj {h h' : Bytes} (hh : IsHash h) (hh' : IsHash h')
    (he : objectFile h = objectFile h') : h = h' := by
  simp only [objectFile, List.append_assoc, List.append_cancel_left_eq, List.cons.injEq,
    List.cons_append, true_and] at he
  have hlen : (h.take 2).length = (h'.take 2).length := by
    rw [List.length_take, List.length_take, hh.length, hh'.length]
  obtain ⟨h1, h2⟩ := List.append_inj he hlen
  rw [← List.take_append_drop 2 h, h1, (List.cons.inj h2).2, List.take_append_drop]

namespace StoreCall

theorem object_length (c : StoreCall) : c.object.length = (objectFile []).length + 64 :=
  (isHash_blobHash c.data).objectFile_length

/-- An object is no temporary file. -/
theorem object_ne_tmp (c c' : StoreCall) : c.object ≠ c'.tmp := by
  intro h
  have hlen := congrArg List.length h
  rw [tmp, List.length_append, object_length, object_length,
    show (ascii ".tmp").length = 4 by decide] at hlen
  omega

theorem hash_of_object {c c' : StoreCall} (h : c.object = c'.object) :
    blobHash c.data = blobHash c'.data :=
  objectFile_inj (isHash_blobHash _) (isHash_blobHash _) h

end StoreCall

/-! ## 4. The invariant -/

/-- What holds of a worker: `full i` is the content that inode `i` was made for. -/
def StorePc.Good (S : Set Bytes) (full : Nat → Bytes) (d : Disk Bytes Bytes) : StorePc → Prop
  | .idle => True
  | .hashed c => c.data ∈ S
  | .opening c => c.data ∈ S
  | .writing c i k => c.data ∈ S ∧ i < d.next ∧ full i = c.data ∧ d.inode i = c.data.take k ∧
      k ≤ c.data.length ∧
      match c.kind with
      | .memory => d.entry c.tmp = some i
      | .file => ∃ j, d.entry c.object = some j ∧ (j = i ∨ d.inode j = full j)
  | .moving c => c.data ∈ S ∧ ∃ i, d.entry c.tmp = some i ∧ full i = c.data ∧ d.inode i = c.data
  | .removing _ => False

/-- The inode a worker writes to. -/
def StorePc.stream : StorePc → Option Nat
  | .writing _ i _ => some i
  | _ => none

/-- The temporary file a worker has made. -/
def StorePc.tmp : StorePc → Option Bytes
  | .writing c _ _ => if c.kind = .memory then some c.tmp else none
  | .moving c => some c.tmp
  | _ => none

structure StoreClear (S : Set Bytes) (full : Nat → Bytes) (s : StoreState W) : Prop where
  ok : s.disk.Ok
  good : ∀ w, (s.pc w).Good S full s.disk
  streams : Exclusive (StorePc.stream ∘ s.pc)
  tmps : Exclusive (StorePc.tmp ∘ s.pc)
  /-- an inode holds what it was made for, or a worker is at it -/
  filled : ∀ i < s.disk.next, s.disk.inode i = full i ∨ ∃ w, (s.pc w).stream = some i
  objects : ∀ c : StoreCall, ∀ i, s.disk.entry c.object = some i →
    blobHash (full i) = blobHash c.data ∧ full i ∈ S
  returned : ∀ data ∈ s.returned, data ∈ S ∧ ∃ i,
    s.disk.entry (objectFile (blobHash data)) = some i ∧ s.disk.inode i = full i

/-! ## 5. What other workers do -/

section Frame

variable {S : Set Bytes} {full full' : Nat → Bytes} {d d' : Disk Bytes Bytes} {p : StorePc}

/-- A file is made. -/
theorem StorePc.Good.mono (h : p.Good S full d) (hok : d.Ok)
    (hent : ∀ n i, d.entry n = some i → d'.entry n = some i)
    (hin : ∀ i < d.next, d'.inode i = d.inode i ∧ full' i = full i) (hnext : d.next ≤ d'.next) :
    p.Good S full' d' := by
  cases p with
  | idle => exact h
  | hashed c => exact h
  | opening c => exact h
  | removing c => exact h
  | moving c =>
    obtain ⟨hS, i, hi, hfull, hdata⟩ := h
    obtain ⟨h1, h2⟩ := hin i (hok _ i hi)
    exact ⟨hS, i, hent _ _ hi, h2.trans hfull, h1.trans hdata⟩
  | writing c i k =>
    obtain ⟨hS, hlt, hfull, hdata, hk, hname⟩ := h
    obtain ⟨h1, h2⟩ := hin i hlt
    refine ⟨hS, Nat.lt_of_lt_of_le hlt hnext, h2.trans hfull, h1.trans hdata, hk, ?_⟩
    cases hc : c.kind <;> rw [hc] at hname
    · exact hent _ _ hname
    · obtain ⟨j, hj, hor⟩ := hname
      obtain ⟨h3, h4⟩ := hin j (hok _ j hj)
      exact ⟨j, hent _ _ hj, hor.imp_right fun h => by rw [h3, h4, h]⟩

/-- Another worker writes to an inode that is not full. -/
theorem StorePc.Good.put (h : p.Good S full d) {i : Nat} (hne : d.inode i ≠ full i)
    (hp : p.stream ≠ some i) (x : Bytes) : p.Good S full (d.put i x) := by
  cases p with
  | idle => exact h
  | hashed c => exact h
  | opening c => exact h
  | removing c => exact h
  | moving c =>
    obtain ⟨hS, j, hj, hfull, hdata⟩ := h
    have hji : j ≠ i := by
      rintro rfl
      exact hne (hdata.trans hfull.symm)
    exact ⟨hS, j, hj, hfull, by rw [Disk.put_ne hji, hdata]⟩
  | writing c j k =>
    obtain ⟨hS, hlt, hfull, hdata, hk, hname⟩ := h
    have hji : j ≠ i := fun h => hp (congrArg some h)
    refine ⟨hS, hlt, hfull, by rw [Disk.put_ne hji, hdata], hk, ?_⟩
    cases hc : c.kind <;> rw [hc] at hname
    · exact hname
    · obtain ⟨j', hj', hor⟩ := hname
      refine ⟨j', hj', hor.imp_right fun h => ?_⟩
      have hji' : j' ≠ i := by
        rintro rfl
        exact hne h
      rw [Disk.put_ne hji', h]

/-- Another worker publishes its temporary file. -/
theorem StorePc.Good.rename (h : p.Good S full d) {c : StoreCall} {i : Nat}
    (hi : d.inode i = full i) (hp : p.tmp ≠ some c.tmp) :
    p.Good S full (d.rename c.tmp c.object i) := by
  have htmp : ∀ {c' : StoreCall} {j}, d.entry c'.tmp = some j → c'.tmp ≠ c.tmp →
      (d.rename c.tmp c.object i).entry c'.tmp = some j := by
    intro c' j hj hne
    rw [Disk.rename_entry (c.object_ne_tmp c').symm, if_neg hne, hj]
  cases p with
  | idle => exact h
  | hashed c => exact h
  | opening c => exact h
  | removing c => exact h
  | moving c' =>
    obtain ⟨hS, j, hj, hfull, hdata⟩ := h
    exact ⟨hS, j, htmp hj fun h => hp (congrArg some h), hfull, hdata⟩
  | writing c' j k =>
    obtain ⟨hS, hlt, hfull, hdata, hk, hname⟩ := h
    refine ⟨hS, hlt, hfull, hdata, hk, ?_⟩
    cases hc : c'.kind <;> rw [hc] at hname
    · exact htmp hname fun h => hp (by rw [StorePc.tmp, if_pos hc, h])
    · by_cases hobj : c'.object = c.object
      · exact ⟨i, by rw [hobj, Disk.rename_target], .inr hi⟩
      · obtain ⟨j', hj', hor⟩ := hname
        refine ⟨j', ?_, hor⟩
        rw [Disk.rename_entry hobj, if_neg (c'.object_ne_tmp c), hj']

end Frame

/-! ## 6. One step -/

section Step

variable {S : Set Bytes} {full full' : Nat → Bytes} {s s' : StoreState W} {w : W} {p : StorePc}

/-- A step of the worker `w`, from what it does to the disk. -/
theorem StoreClear.worker (hi : StoreClear S full s) {d : Disk Bytes Bytes} {ret : List Bytes}
    (hok : d.Ok) (hself : p.Good S full' d) (hothers : ∀ u, u ≠ w → (s.pc u).Good S full' d)
    (hstream : ∀ i, p.stream = some i →
      (s.pc w).stream = some i ∨ ∀ u, (s.pc u).stream ≠ some i)
    (htmp : ∀ n, p.tmp = some n → (s.pc w).tmp = some n ∨ ∀ u, (s.pc u).tmp ≠ some n)
    (hfilled : ∀ i < d.next, d.inode i = full' i ∨ p.stream = some i ∨
      ∃ u, u ≠ w ∧ (s.pc u).stream = some i)
    (hobjects : ∀ c : StoreCall, ∀ i, d.entry c.object = some i →
      blobHash (full' i) = blobHash c.data ∧ full' i ∈ S)
    (hreturned : ∀ data ∈ ret, data ∈ S ∧ ∃ i,
      d.entry (objectFile (blobHash data)) = some i ∧ d.inode i = full' i) :
    StoreClear S full' ⟨d, Function.update s.pc w p, ret⟩ where
  ok := hok
  good u := by
    dsimp only
    rw [Function.update_apply]
    split
    · exact hself
    · rename_i hu
      exact hothers u hu
  streams := by
    rw [Function.comp_update]
    exact hi.streams.update hstream
  tmps := by
    rw [Function.comp_update]
    exact hi.tmps.update htmp
  filled i hlt := by
    rcases hfilled i hlt with h | h | ⟨u, hu, h⟩
    · exact .inl h
    · refine .inr ⟨w, ?_⟩
      dsimp only
      rw [Function.update_self, h]
    · refine .inr ⟨u, ?_⟩
      dsimp only
      rw [Function.update_of_ne hu, h]
  objects := hobjects
  returned := hreturned

/-- A step that leaves the disk alone, to a place where the worker has no stream: what it wrote is
all there. -/
theorem StoreClear.goto (hi : StoreClear S full s) {ret : List Bytes}
    (hself : p.Good S full s.disk) (hstream : p.stream = none)
    (hwas : ∀ i, (s.pc w).stream = some i → s.disk.inode i = full i)
    (htmp : p.tmp = none ∨ p.tmp = (s.pc w).tmp)
    (hreturned : ∀ data ∈ ret, data ∈ S ∧ ∃ i,
      s.disk.entry (objectFile (blobHash data)) = some i ∧ s.disk.inode i = full i) :
    StoreClear S full ⟨s.disk, Function.update s.pc w p, ret⟩ := by
  refine hi.worker hi.ok hself (fun u _ => hi.good u) (fun i h => ?_) (fun n h => ?_)
    (fun i hlt => ?_) hi.objects hreturned
  · rw [hstream] at h
    cases h
  · rcases htmp with hn | hn
    · rw [hn] at h
      cases h
    · exact .inl (hn ▸ h)
  · rcases hi.filled i hlt with h | ⟨u, hu⟩
    · exact .inl h
    · by_cases huw : u = w
      · subst huw
        exact .inl (hwas i hu)
      · exact .inr (.inr ⟨u, huw, hu⟩)

theorem StorePc.Good.stream_lt {d : Disk Bytes Bytes} (h : p.Good S full d) {i : Nat}
    (hp : p.stream = some i) : i < d.next := by
  cases p <;> cases hp
  exact h.2.1

theorem StorePc.Good.tmp_entry {d : Disk Bytes Bytes} (h : p.Good S full d) {n : Bytes}
    (hp : p.tmp = some n) : d.entry n ≠ none := by
  cases p with
  | idle => cases hp
  | hashed c => cases hp
  | opening c => cases hp
  | removing c => cases hp
  | moving c =>
    cases hp
    obtain ⟨-, i, hi, -⟩ := h
    simp [hi]
  | writing c i k =>
    rw [StorePc.tmp] at hp
    split at hp
    · rename_i hc
      cases hp
      obtain ⟨-, -, -, -, -, hname⟩ := h
      rw [hc] at hname
      simp [show d.entry c.tmp = some i from hname]
    · cases hp

/-- A worker looks and finds a complete object. -/
theorem StoreClear.found (hS : CollisionFree S) (hi : StoreClear S full s) {c : StoreCall} {i : Nat}
    (h : s.pc w = .hashed c) (he : s.disk.entry c.object = some i)
    (hdata : s.disk.inode i = c.data) :
    StoreClear S full ⟨s.disk, Function.update s.pc w .idle, c.data :: s.returned⟩ := by
  have hc : c.data ∈ S := by
    have := hi.good w
    rwa [h] at this
  obtain ⟨hhash, hfull⟩ := hi.objects c i he
  refine hi.goto trivial rfl (fun i hi => by simp [h, StorePc.stream] at hi) (.inl rfl) ?_
  rintro data (_ | ⟨_, hmem⟩)
  · exact ⟨hc, i, he, hdata.trans (blobHash_inj hS hfull hc hhash).symm⟩
  · exact hi.returned data hmem

/-- A worker makes its target. -/
theorem StoreClear.fopen (hi : StoreClear S full s) {c : StoreCall} (h : s.pc w = .opening c)
    (hnone : s.disk.entry c.target = none) {d : Disk Bytes Bytes} (hd : s.disk.Made c.target [] d) :
    StoreClear S (Function.update full s.disk.next c.data)
      ⟨d, Function.update s.pc w (.writing c s.disk.next 0), s.returned⟩ := by
  have hc : c.data ∈ S := by
    have := hi.good w
    rwa [h] at this
  have hold : ∀ i < s.disk.next, d.inode i = s.disk.inode i ∧
      Function.update full s.disk.next c.data i = full i := fun i hlt =>
    ⟨hd.inode_lt i hlt, Function.update_of_ne (Nat.ne_of_lt hlt) ..⟩
  have hnext : s.disk.next < d.next := by
    rw [hd.next]
    exact Nat.lt_succ_self _
  refine hi.worker (hd.ok hi.ok) ?_
    (fun u _ => (hi.good u).mono hi.ok (fun n i => hd.entry hnone) hold (Nat.le_of_lt hnext))
    (fun i hi' => ?_) (fun n hn => ?_) (fun i hlt => ?_) (fun c' i hc' => ?_) (fun data hmem => ?_)
  · refine ⟨hc, hnext, Function.update_self .., hd.inode_self, Nat.zero_le _, ?_⟩
    have hself := hd.entry_self
    unfold StoreCall.target at hself
    cases hk : c.kind <;> rw [hk] at hself
    · exact hself
    · exact ⟨_, hself, .inl rfl⟩
  · cases hi'
    exact .inr fun u hu => Nat.lt_irrefl _ ((hi.good u).stream_lt hu)
  · rw [StorePc.tmp] at hn
    split at hn
    · rename_i hk
      cases hn
      refine .inr fun u hu => (hi.good u).tmp_entry hu ?_
      rwa [StoreCall.target, hk] at hnone
    · cases hn
  · rw [hd.next] at hlt
    rcases Nat.lt_succ_iff_lt_or_eq.mp hlt with hlt | rfl
    · rw [(hold i hlt).1, (hold i hlt).2]
      rcases hi.filled i hlt with hdata | ⟨u, hu⟩
      · exact .inl hdata
      · refine .inr (.inr ⟨u, ?_, hu⟩)
        rintro rfl
        simp [h, StorePc.stream] at hu
    · exact .inr (.inl rfl)
  · by_cases htarget : c'.object = c.target
    · have hk : c.target = c.object := by
        cases hk : c.kind with
        | file => rw [StoreCall.target, hk]
        | memory =>
          rw [StoreCall.target, hk] at htarget
          exact absurd htarget (c'.object_ne_tmp c)
      rw [htarget, hd.entry_self] at hc'
      obtain rfl := Option.some.inj hc'
      rw [Function.update_self]
      exact ⟨StoreCall.hash_of_object (htarget.trans hk).symm, hc⟩
    · rw [hd.entry_ne _ htarget] at hc'
      rw [(hold i (hi.ok _ i hc')).2]
      exact hi.objects c' i hc'
  · obtain ⟨hdS, i, he, hdata⟩ := hi.returned data hmem
    obtain ⟨h1, h2⟩ := hold i (hi.ok _ i he)
    exact ⟨hdS, i, hd.entry hnone he, by rw [h1, h2, hdata]⟩

/-- A worker writes a block. -/
theorem StoreClear.fwrite (hi : StoreClear S full s) {c : StoreCall} {i k n : Nat}
    (h : s.pc w = .writing c i k) (hn : 0 < n) (hk : k + n ≤ c.data.length) :
    StoreClear S full ⟨s.disk.put i (writeAt (s.disk.inode i) k ((c.data.drop k).take n)),
      Function.update s.pc w (.writing c i (k + n)), s.returned⟩ := by
  have hgood := hi.good w
  rw [h] at hgood
  obtain ⟨hc, hlt, hfull, hdata, -, hname⟩ := hgood
  have hne : s.disk.inode i ≠ full i := by
    rw [hdata, hfull]
    exact take_ne_self hn hk
  have hstream : (s.pc w).stream = some i := by rw [h, StorePc.stream]
  rw [hdata, writeAt_take hk]
  refine hi.worker hi.ok ⟨hc, hlt, hfull, Disk.put_self, hk, ?_⟩ (fun u hu => ?_) (fun j hj => ?_)
    (fun m hm => ?_) (fun j hj => ?_) hi.objects (fun data hmem => ?_)
  · cases hkind : c.kind <;> rw [hkind] at hname
    · exact hname
    · obtain ⟨j, hj, hor⟩ := hname
      refine ⟨j, hj, hor.imp_right fun hjfull => ?_⟩
      rw [Disk.put_ne (by rintro rfl; exact hne hjfull), hjfull]
  · exact (hi.good u).put hne (fun hu' => hu (hi.streams u w i hu' hstream)) _
  · exact .inl (by rwa [h])
  · exact .inl (by rwa [h])
  · by_cases hji : j = i
    · exact .inr (.inl (by rw [hji, StorePc.stream]))
    · rw [Disk.put_ne hji]
      rcases hi.filled j hj with hfilled | ⟨u, hu⟩
      · exact .inl hfilled
      · refine .inr (.inr ⟨u, ?_, hu⟩)
        rintro rfl
        exact hji (Option.some.inj (hu.symm.trans hstream))
  · obtain ⟨hdS, j, he, hjfull⟩ := hi.returned data hmem
    exact ⟨hdS, j, he, by rw [Disk.put_ne (by rintro rfl; exact hne hjfull), hjfull]⟩

/-- A worker publishes its temporary file. -/
theorem StoreClear.rename (hi : StoreClear S full s) {c : StoreCall} {i : Nat}
    (h : s.pc w = .moving c) (he : s.disk.entry c.tmp = some i) :
    StoreClear S full ⟨s.disk.rename c.tmp c.object i, Function.update s.pc w .idle,
      c.data :: s.returned⟩ := by
  have hgood := hi.good w
  rw [h] at hgood
  obtain ⟨hc, j, hj, hfull, hdata⟩ := hgood
  obtain rfl : i = j := Option.some.inj (he.symm.trans hj)
  have hwhole : s.disk.inode i = full i := hdata.trans hfull.symm
  have hother : ∀ c' : StoreCall, c'.object ≠ c.object →
      (s.disk.rename c.tmp c.object i).entry c'.object = s.disk.entry c'.object := by
    intro c' hne
    rw [Disk.rename_entry hne, if_neg (c'.object_ne_tmp c)]
  refine hi.worker (hi.ok.rename (hi.ok _ i he)) trivial (fun u hu => ?_) (fun j hj => by cases hj)
    (fun m hm => by cases hm) (fun j hj => ?_) (fun c' j hj => ?_) ?_
  · refine (hi.good u).rename hwhole fun hu' => hu (hi.tmps u w c.tmp hu' ?_)
    rw [Function.comp_apply, h, StorePc.tmp]
  · rcases hi.filled j hj with hfilled | ⟨u, hu⟩
    · exact .inl hfilled
    · refine .inr (.inr ⟨u, ?_, hu⟩)
      rintro rfl
      simp [h, StorePc.stream] at hu
  · by_cases hobj : c'.object = c.object
    · rw [hobj, Disk.rename_target] at hj
      obtain rfl := Option.some.inj hj
      rw [hfull]
      exact ⟨StoreCall.hash_of_object hobj.symm, hc⟩
    · rw [hother c' hobj] at hj
      exact hi.objects c' j hj
  · have hnew : ∀ c' : StoreCall, c'.object = c.object → ∃ j,
        (s.disk.rename c.tmp c.object i).entry c'.object = some j ∧ s.disk.inode j = full j :=
      fun c' hobj => ⟨i, by rw [hobj, Disk.rename_target], hwhole⟩
    rintro data (_ | ⟨_, hmem⟩)
    · exact ⟨hc, hnew c rfl⟩
    · obtain ⟨hdS, j, hj, hjfull⟩ := hi.returned data hmem
      refine ⟨hdS, ?_⟩
      by_cases hobj : StoreCall.object ⟨.file, data⟩ = c.object
      · exact hnew ⟨.file, data⟩ hobj
      · exact ⟨j, (hother ⟨.file, data⟩ hobj).trans hj, hjfull⟩

/-- **One step** of a worker that no other spoils. -/
theorem StoreStep.clear (hS : CollisionFree S) {e : StoreEvent W} (hs : StoreStep s e s')
    (ha : e.Apart s) (hmem : ∀ w c, e = .start w c → c.data ∈ S) (hi : StoreClear S full s) :
    ∃ full', StoreClear S full' s' := by
  cases hs with
  | start h c =>
    exact ⟨full, hi.goto (hmem _ c rfl) rfl (fun i hi => by simp [h, StorePc.stream] at hi) (.inl rfl)
      hi.returned⟩
  | found h he => exact ⟨full, hi.found hS h he (ha _ _ h he)⟩
  | @missing w c h he =>
    have hc := hi.good w
    rw [h] at hc
    exact ⟨full, hi.goto hc rfl (fun i hi => by simp [h, StorePc.stream] at hi) (.inl rfl)
      hi.returned⟩
  | @fopen w c h =>
    have hnone := ha c h
    have hd := (Disk.made_create hnone []).put []
    rw [StoreState.goto, Disk.create_fst hnone]
    exact ⟨_, hi.fopen h hnone hd⟩
  | fwrite h hn hk => exact ⟨full, hi.fwrite h hn hk⟩
  | @closeTmp w c i h hk =>
    have hgood := hi.good w
    rw [h] at hgood
    obtain ⟨hc, -, hfull, hdata, -, hname⟩ := hgood
    rw [List.take_length] at hdata
    rw [hk] at hname
    refine ⟨full, hi.goto ⟨hc, i, hname, hfull, hdata⟩ rfl (fun j hj => ?_) (.inr ?_) hi.returned⟩
    · rw [h] at hj
      cases hj
      rw [hdata, hfull]
    · rw [h, StorePc.tmp, StorePc.tmp, if_pos hk]
  | @closeObject w c i h hk =>
    have hgood := hi.good w
    rw [h] at hgood
    obtain ⟨hc, -, hfull, hdata, -, hname⟩ := hgood
    rw [List.take_length] at hdata
    rw [hk] at hname
    obtain ⟨j, hj, hor⟩ := hname
    refine ⟨full, hi.goto trivial rfl (fun j hj => ?_) (.inl rfl) ?_⟩
    · rw [h] at hj
      cases hj
      rw [hdata, hfull]
    · rintro data (_ | ⟨_, hmem⟩)
      · refine ⟨hc, j, hj, ?_⟩
        rcases hor with rfl | hwhole
        · rw [hdata, hfull]
        · exact hwhole
      · exact hi.returned data hmem
  | rename h he => exact ⟨full, hi.rename h he⟩
  | @renameFails w c h he =>
    have hgood := hi.good w
    rw [h] at hgood
    obtain ⟨-, i, hi', -⟩ := hgood
    rw [he] at hi'
    cases hi'
  | @unlink w c h =>
    have hgood := hi.good w
    rw [h] at hgood
    exact hgood.elim

omit [DecidableEq W] in
theorem StoreClear.init : StoreClear S full (StoreState.init : StoreState W) where
  ok n i h := by cases h
  good w := trivial
  streams w w' b h := by cases h
  tmps w w' b h := by cases h
  filled i hi := by cases hi
  objects c i h := by cases h
  returned data h := by cases h

omit [DecidableEq W] in
/-- What was returned is complete. -/
theorem StoreClear.complete (hS : CollisionFree S) (hi : StoreClear S full s) {data : Bytes}
    (h : data ∈ s.returned) : Complete s.disk data := by
  obtain ⟨hdS, i, he, hdata⟩ := hi.returned data h
  obtain ⟨hhash, hfull⟩ := hi.objects ⟨.file, data⟩ i he
  exact ⟨i, he, hdata.trans (blobHash_inj hS hfull hdS hhash)⟩

end Step

/-! ## 7. Runs -/

/-- A step, and that no other worker spoils it. -/
def ApartStep (s : StoreState W) (e : StoreEvent W) (s' : StoreState W) : Prop :=
  StoreStep s e s' ∧ e.Apart s

omit [DecidableEq W] in
theorem storedContents_append (tr : List (StoreEvent W)) (e : StoreEvent W) :
    storedContents tr ⊆ storedContents (tr ++ [e]) := by
  rintro data ⟨w, c, hc, rfl⟩
  exact ⟨w, c, List.mem_append_left _ hc, rfl⟩

/-- **Stores at the same time.**  In a run of any number of workers, of contents with hashes of
their own, in which no look finds an object that is not complete and no target that is opened is
there, whatever hash a call has returned names a complete object. -/
theorem concurrent_stores {tr : List (StoreEvent W)} {s : StoreState W}
    (hrun : Run ApartStep StoreState.init tr s) (hS : CollisionFree (storedContents tr)) :
    ∀ data ∈ s.returned, Complete s.disk data := by
  have hinv : ∀ S, CollisionFree S → storedContents tr ⊆ S → ∃ full, StoreClear S full s := by
    intro S hcf
    refine hrun.inv (I := fun tr s => storedContents tr ⊆ S → ∃ full, StoreClear S full s)
      (fun _ => ⟨fun _ => [], .init⟩) ?_
    rintro tr s e s' - ih ⟨hs, ha⟩ hsub
    obtain ⟨full, hi⟩ := ih ((storedContents_append tr e).trans hsub)
    exact hs.clear hcf ha (fun w c he => hsub ⟨w, c, by simp [he], rfl⟩) hi
  obtain ⟨full, hi⟩ := hinv _ hS subset_rfl
  exact fun data h => hi.complete hS h

/-! ## 8. A call without others -/

section Alone

variable {s : StoreState W} {w : W} {c : StoreCall}

/-- Up to the first block. -/
theorem store_opened (h : s.pc w = .idle) (hobj : s.disk.entry c.object = none)
    (htarget : s.disk.entry c.target = none) :
    ∃ d, s.disk.Made c.target [] d ∧ Run ApartStep s [.start w c, .look w, .fopen w]
      ((s.goto w (.writing c s.disk.next 0)).withDisk d) := by
  have h1 : ApartStep s (.start w c) (s.goto w (.hashed c)) := ⟨.start h c, trivial⟩
  have h2 : ApartStep (s.goto w (.hashed c)) (.look w) (s.goto w (.opening c)) := by
    refine ⟨by simpa using StoreStep.missing (s.goto_self w _) hobj, fun c' i hc' hi => ?_⟩
    rw [StoreState.goto_self] at hc'
    cases hc'
    rw [StoreState.goto_disk, hobj] at hi
    cases hi
  have h3 := StoreStep.fopen (s.goto_self w (.opening c))
  rw [StoreState.goto_goto, StoreState.goto_disk, Disk.create_fst htarget] at h3
  have ha3 : (StoreEvent.fopen w).Apart (s.goto w (.opening c)) := by
    intro c' hc'
    rw [StoreState.goto_self] at hc'
    cases hc'
    exact htarget
  exact ⟨_, (Disk.made_create htarget []).put [],
    ((Run.single h1).append (Run.single h2)).append (Run.single ⟨h3, ha3⟩)⟩

/-- Up to the last block. -/
theorem store_written (h : s.pc w = .idle) (hobj : s.disk.entry c.object = none)
    (htarget : s.disk.entry c.target = none) :
    ∃ d tr, s.disk.Made c.target c.data d ∧ storedContents tr = {c.data} ∧
      Run ApartStep s tr ((s.goto w (.writing c s.disk.next c.data.length)).withDisk d) := by
  obtain ⟨d, hd, hrun⟩ := store_opened h hobj htarget
  have hcontents : ∀ tr : List (StoreEvent W), (∀ u c', .start u c' ∉ tr) →
      storedContents ([StoreEvent.start w c, .look w, .fopen w] ++ tr) = {c.data} := by
    intro tr htr
    ext data
    simp [storedContents, htr, eq_comm]
  by_cases hnil : c.data = []
  · refine ⟨d, _, hnil ▸ hd, ?_, by rw [hnil]; exact hrun⟩
    simpa using hcontents [] (by simp)
  · have hpos : 0 < c.data.length := List.length_pos_iff.mpr hnil
    have h4 := StoreStep.fwrite (s := (s.goto w (.writing c s.disk.next 0)).withDisk d)
      (s.goto_self w _) hpos (Nat.le_of_eq (Nat.zero_add _))
    have hdata : writeAt (d.inode s.disk.next) 0 ((c.data.drop 0).take c.data.length) = c.data := by
      have := writeAt_take (show 0 + c.data.length ≤ c.data.length by simp)
      rwa [List.take_zero, Nat.zero_add, List.take_length, ← hd.inode_self] at this
    rw [StoreState.withDisk_disk, hdata, Nat.zero_add, StoreState.withDisk_goto,
      StoreState.withDisk_withDisk, StoreState.goto_goto] at h4
    exact ⟨_, _, hd.put c.data, hcontents [.fwrite w c.data.length] (by simp),
      hrun.append (Run.single ⟨h4, trivial⟩)⟩

/-- **A call that no other meets** stores its content and returns its hash. -/
theorem store_alone (h : s.pc w = .idle) (hobj : s.disk.entry c.object = none)
    (htarget : s.disk.entry c.target = none) :
    ∃ tr s', storedContents tr = {c.data} ∧ Run ApartStep s tr s' ∧ s'.pc w = .idle ∧
      s'.returned = c.data :: s.returned ∧ Complete s'.disk c.data ∧
      ∀ c' : StoreCall, c'.object ≠ c.object → s'.disk.entry c'.object = s.disk.entry c'.object := by
  obtain ⟨d, tr, hd, hc, hrun⟩ := store_written h hobj htarget
  have hcontents : ∀ tr' : List (StoreEvent W), (∀ u c', .start u c' ∉ tr') →
      storedContents (tr ++ tr') = {c.data} := by
    intro tr' htr'
    rw [← hc]
    ext data
    simp [storedContents, htr']
  have hpc := StoreState.goto_self s w (.writing c s.disk.next c.data.length)
  cases hk : c.kind with
  | file =>
    have htgt : c.target = c.object := by rw [StoreCall.target, hk]
    rw [htgt] at hd
    have h1 := StoreStep.closeObject (s := (s.goto w _).withDisk d) hpc hk
    exact ⟨_, _, hcontents [.fclose w] (by simp), hrun.append (Run.single ⟨h1, trivial⟩),
      StoreState.goto_self .., rfl, ⟨_, hd.entry_self, hd.inode_self⟩,
      fun c' hne => hd.entry_ne _ hne⟩
  | memory =>
    have htgt : c.target = c.tmp := by rw [StoreCall.target, hk]
    rw [htgt] at hd
    have hclose : ApartStep ((s.goto w (.writing c s.disk.next c.data.length)).withDisk d) (.fclose w)
        ((s.goto w (.moving c)).withDisk d) := by
      refine ⟨?_, trivial⟩
      simpa using StoreStep.closeTmp (s := (s.goto w _).withDisk d) hpc hk
    have hrename : ApartStep ((s.goto w (.moving c)).withDisk d) (.rename w)
        (((s.goto w .idle).withDisk (d.rename c.tmp c.object s.disk.next)).ret c.data) := by
      refine ⟨?_, trivial⟩
      simpa using StoreStep.rename (s := (s.goto w (.moving c)).withDisk d) (s.goto_self w _)
        hd.entry_self
    have hother : ∀ c' : StoreCall, c'.object ≠ c.object →
        (d.rename c.tmp c.object s.disk.next).entry c'.object = s.disk.entry c'.object := by
      intro c' hne
      rw [Disk.rename_entry hne, if_neg (c'.object_ne_tmp c), hd.entry_ne _ (c'.object_ne_tmp c)]
    exact ⟨_, ((s.goto w .idle).withDisk (d.rename c.tmp c.object s.disk.next)).ret c.data,
      hcontents ([.fclose w] ++ [.rename w]) (by simp), hrun.append ((Run.single hclose).append (Run.single hrename)),
      s.goto_self w _, rfl, ⟨_, Disk.rename_target, hd.inode_self⟩, hother⟩

end Alone

/-- One worker that stores a content. -/
theorem concurrent_stores_hello : ∃ tr, ∃ s : StoreState Bool,
    Run ApartStep StoreState.init tr s ∧ s.returned = [ascii "hello"] ∧
      ∀ data ∈ s.returned, Complete s.disk data := by
  obtain ⟨tr, s, hc, hrun, -, hret, -⟩ := store_alone (s := StoreState.init) (w := true)
    (c := ⟨.memory, ascii "hello"⟩) rfl rfl rfl
  refine ⟨tr, s, hrun, hret, concurrent_stores hrun ?_⟩
  rw [hc]
  exact Set.injOn_singleton ..

/-! ## 9. Calls that meet -/

/-- A worker that finds an object that is not complete returns its hash. -/
theorem look_spoilt {s : StoreState W} {w : W} {c : StoreCall} {i : Nat}
    (hc : s.pc w = .hashed c) (hi : s.disk.entry c.object = some i) (hne : s.disk.inode i ≠ c.data) :
    StoreStep s (.look w) ((s.goto w .idle).ret c.data) ∧ ¬ Complete s.disk c.data := by
  refine ⟨.found hc hi, ?_⟩
  rintro ⟨j, hj, hdata⟩
  obtain rfl : i = j := Option.some.inj (hi.symm.trans hj)
  exact hne hdata

/-- **A store from a file is seen before it is done**: the second worker finds the object that the
first has made, and no byte is in it. -/
theorem object_seen_empty {data : Bytes} (hne : data ≠ []) :
    ∃ s : StoreState Bool, Run StoreStep StoreState.init [.start true ⟨.file, data⟩, .look true,
        .fopen true, .start false ⟨.file, data⟩, .look false] s ∧
      data ∈ s.returned ∧ ¬ Complete s.disk data := by
  obtain ⟨d, hd, hrun⟩ := store_opened (s := (StoreState.init : StoreState Bool)) (w := true)
    (c := ⟨.file, data⟩) rfl rfl rfl
  rw [show StoreCall.target ⟨.file, data⟩ = StoreCall.object ⟨.file, data⟩ from rfl] at hd
  have hidle : ((StoreState.init.goto true (.writing ⟨.file, data⟩ 0 0)).withDisk d).pc false = .idle :=
    StoreState.goto_ne StoreState.init Bool.false_ne_true (.writing ⟨.file, data⟩ 0 0)
  have hstart := StoreStep.start hidle ⟨.file, data⟩
  obtain ⟨hlook, hspoilt⟩ := look_spoilt (c := ⟨.file, data⟩) (i := 0)
    (s := ((StoreState.init.goto true (.writing ⟨.file, data⟩ 0 0)).withDisk d).goto false
      (.hashed ⟨.file, data⟩)) (StoreState.goto_self ..) hd.entry_self
    (fun h => hne (h.symm.trans hd.inode_self))
  exact ⟨_, (hrun.imp fun _ _ _ h => h.1).append ((Run.single hstart).append (Run.single hlook)),
    List.mem_cons_self, hspoilt⟩

/-- **A temporary file is shared**: the second worker empties what the first is about to publish. -/
theorem tmp_emptied {data : Bytes} (hne : data ≠ []) :
    ∃ tr, ∃ s : StoreState Bool, Run StoreStep StoreState.init tr s ∧
      data ∈ s.returned ∧ ¬ Complete s.disk data := by
  let c : StoreCall := ⟨.memory, data⟩
  obtain ⟨d, tr, hd, -, hrun⟩ := store_written (s := (StoreState.init : StoreState Bool))
    (w := true) (c := c) rfl rfl rfl
  let s₀ := ((StoreState.init : StoreState Bool).goto true (.writing c 0 data.length)).withDisk d
  let s₁ := (s₀.goto false (.writing c 0 0)).withDisk (d.put 0 [])
  have hidle : s₀.pc false = .idle :=
    StoreState.goto_ne StoreState.init Bool.false_ne_true (.writing c 0 data.length)
  have hwritten : s₁.pc true = .writing c 0 c.data.length :=
    (StoreState.goto_ne s₀ Bool.false_ne_true.symm (.writing c 0 0)).trans
      (StoreState.goto_self StoreState.init true (.writing c 0 data.length))
  have hnone : d.entry c.object = none := hd.entry_ne _ (c.object_ne_tmp c)
  have hsome : d.entry c.target = some 0 := hd.entry_self
  have h1 := StoreStep.start hidle c
  have h2 := StoreStep.missing (StoreState.goto_self s₀ false (.hashed c)) hnone
  have h3 := StoreStep.fopen (StoreState.goto_self s₀ false (.opening c))
  rw [StoreState.goto_goto] at h2 h3
  rw [StoreState.goto_disk, StoreState.withDisk_disk, Disk.create_some hsome] at h3
  have h4 := StoreStep.closeTmp hwritten rfl
  have h5 := StoreStep.rename (i := 0) (StoreState.goto_self s₁ true (.moving c)) hsome
  refine ⟨_, _, (hrun.imp fun _ _ _ h => h.1).append (((((Run.single h1).append
    (Run.single h2)).append (Run.single h3)).append (Run.single h4)).append (Run.single h5)),
    List.mem_cons_self, ?_⟩
  rintro ⟨i, hi, hdata⟩
  obtain rfl : 0 = i := Option.some.inj ((Disk.rename_target (d := d.put 0 [])).symm.trans hi)
  exact hne (hdata.symm.trans (Disk.put_self (d := d) (i := 0) (a := [])))

/-- Workers that store the same file at the same time. -/
theorem object_seen_empty_hello : ∃ s : StoreState Bool, Run StoreStep StoreState.init
      [.start true ⟨.file, ascii "hello"⟩, .look true, .fopen true,
        .start false ⟨.file, ascii "hello"⟩, .look false] s ∧
    ascii "hello" ∈ s.returned ∧ ¬ Complete s.disk (ascii "hello") :=
  object_seen_empty (by decide)

end ReproVM
