/-
# Reflected cyclic redundancy checks

A CRC of width `w`, in the form that processes the low bit first.  The remainder is moved one
place at a time and the polynomial is added where a one drops out.  Moving is additive
(`shift_xor`), so a table of what eight moves make of a byte is enough to process whole bytes
(`byteStep_table`); and as the remainder is carried from byte to byte, the cuts between chunks of
the message do not matter (`foldl_byteStep_flatten`).  A polynomial with its top place set loses
nothing of the remainder, and so no change of at most `w` bits in a row (`checksum_burst`).
-/
import Mathlib.Data.List.GetD
import Mathlib.Data.Fintype.EquivFin
import Mathlib.Logic.Function.Iterate

namespace Lib.Crc

variable {w : Nat} {P : BitVec w} {c : BitVec w}

/-! ## 1. Bit by bit -/

/-- The remainder moves by one place. -/
def shift (P c : BitVec w) : BitVec w := if c.getLsbD 0 then (c >>> 1) ^^^ P else c >>> 1

/-- One byte, its lowest bit first. -/
def byteStep (P c : BitVec w) (b : UInt8) : BitVec w := (shift P)^[8] (c ^^^ b.toBitVec.setWidth w)

/-- The check value of the bytes, with an initial remainder and a final mask. -/
def checksum (P init mask : BitVec w) (data : List UInt8) : BitVec w :=
  data.foldl (byteStep P) init ^^^ mask

/-! ## 2. Moving is additive -/

theorem shift_xor (P c d : BitVec w) : shift P (c ^^^ d) = shift P c ^^^ shift P d := by
  unfold shift
  rw [BitVec.getLsbD_xor, BitVec.ushiftRight_xor_distrib]
  cases hc : c.getLsbD 0 <;> cases hd : d.getLsbD 0
  · rfl
  · exact BitVec.xor_assoc ..
  · change (c >>> 1 ^^^ d >>> 1) ^^^ P = (c >>> 1 ^^^ P) ^^^ d >>> 1
    rw [BitVec.xor_assoc, BitVec.xor_comm (d >>> 1), BitVec.xor_assoc]
  · have hP : (c >>> 1 ^^^ P) ^^^ (d >>> 1 ^^^ P) = c >>> 1 ^^^ d >>> 1 := by
      rw [BitVec.xor_comm (d >>> 1), BitVec.xor_assoc, ← BitVec.xor_assoc P, BitVec.xor_self,
        BitVec.zero_xor]
    exact hP.symm

theorem shift_iterate_xor (P : BitVec w) (n : Nat) (c d : BitVec w) :
    (shift P)^[n] (c ^^^ d) = (shift P)^[n] c ^^^ (shift P)^[n] d := by
  induction n generalizing c d with
  | zero => rfl
  | succ n ih => rw [Function.iterate_succ_apply, shift_xor, ih]; rfl

/-- As long as zeros drop out, nothing is added. -/
theorem shift_iterate_of_zeros {n : Nat} (hc : ∀ i < n, c.getLsbD i = false) :
    (shift P)^[n] c = c >>> n := by
  induction n with
  | zero => exact (BitVec.ushiftRight_zero c).symm
  | succ n ih =>
    have hlow : (c >>> n).getLsbD 0 = false := by
      rw [BitVec.getLsbD_ushiftRight]
      exact hc n (Nat.lt_succ_self n)
    rw [Function.iterate_succ_apply', ih fun i hi => hc i (Nat.lt_succ_of_lt hi), shift,
      if_neg (by simp [hlow]), BitVec.shiftRight_add]

/-! ## 3. The table -/

theorem getLsbD_mask (i : Nat) : (0xFF#w).getLsbD i = (decide (i < w) && decide (i < 8)) := by
  rw [BitVec.getLsbD_ofNat, show (0xFF : Nat) = 2 ^ 8 - 1 from rfl, Nat.testBit_two_pow_sub_one]

/-- A remainder is its low byte and the rest. -/
theorem and_mask_xor (c : BitVec w) : (c &&& 0xFF#w) ^^^ (c &&& ~~~0xFF#w) = c := by
  refine BitVec.eq_of_getLsbD_eq fun i hi => ?_
  rw [BitVec.getLsbD_xor, BitVec.getLsbD_and, BitVec.getLsbD_and, BitVec.getLsbD_not]
  cases c.getLsbD i <;> cases (0xFF#w).getLsbD i <;> simp [hi]

theorem shift_rest (c : BitVec w) : (shift P)^[8] (c &&& ~~~0xFF#w) = c >>> 8 := by
  have hzeros : ∀ i < 8, (c &&& ~~~0xFF#w).getLsbD i = false := by
    intro i hi
    rw [BitVec.getLsbD_and, BitVec.getLsbD_not, getLsbD_mask]
    cases decide (i < w) <;> simp [hi]
  rw [shift_iterate_of_zeros hzeros]
  refine BitVec.eq_of_getLsbD_eq fun i hi => ?_
  rw [BitVec.getLsbD_ushiftRight, BitVec.getLsbD_ushiftRight, BitVec.getLsbD_and,
    BitVec.getLsbD_not, getLsbD_mask]
  by_cases h : 8 + i < w
  · simp [h]
  · simp [BitVec.getLsbD_of_ge c (8 + i) (Nat.le_of_not_lt h)]

/-- Eight moves, from the low byte alone. -/
theorem shift_eight (c : BitVec w) :
    (shift P)^[8] c = (shift P)^[8] (c &&& 0xFF#w) ^^^ (c >>> 8) := by
  have h := shift_iterate_xor P 8 (c &&& 0xFF#w) (c &&& ~~~0xFF#w)
  rwa [and_mask_xor, shift_rest] at h

/-- A byte has nothing above its eight bits. -/
theorem byte_ushiftRight (b : UInt8) : (b.toBitVec.setWidth w) >>> 8 = 0#w := by
  refine BitVec.eq_of_getLsbD_eq fun i _ => ?_
  rw [BitVec.getLsbD_ushiftRight, BitVec.getLsbD_setWidth,
    BitVec.getLsbD_of_ge b.toBitVec (8 + i) (Nat.le_add_right 8 i)]
  simp

/-- **A byte from the table**: the remainder without its low byte, and the entry for that one. -/
theorem byteStep_table (c : BitVec w) (b : UInt8) :
    byteStep P c b = (c >>> 8) ^^^ (shift P)^[8] ((c ^^^ b.toBitVec.setWidth w) &&& 0xFF#w) := by
  rw [byteStep, shift_eight, BitVec.ushiftRight_xor_distrib, byte_ushiftRight, BitVec.xor_zero,
    BitVec.xor_comm]

theorem foldl_byteStep_flatten (P c : BitVec w) (chunks : List (List UInt8)) :
    chunks.flatten.foldl (byteStep P) c =
      chunks.foldl (fun c chunk => chunk.foldl (byteStep P) c) c :=
  List.foldl_flatten

/-! ## 4. Bit by bit, the bits of the message too

A remainder of `w` places takes up `w` bits of the message as a whole: as long as no bit has moved
through all of it, reading them one after the other is adding all of them at the start
(`foldl_bitStep`).  No move forgets anything, since the polynomial has its top place set. -/

/-- One bit of the message. -/
def bitStep (P c : BitVec w) (b : Bool) : BitVec w := shift P (c ^^^ (BitVec.ofBool b).setWidth w)

/-- Bits of the message, the first in the lowest place. -/
def word (w : Nat) (bs : List Bool) : BitVec w := (BitVec.ofBoolListLE bs).setWidth w

/-- The bits of a byte in the order they are taken. -/
def bits (b : UInt8) : List Bool := (List.range 8).map b.toBitVec.getLsbD

theorem length_bits (b : UInt8) : (bits b).length = 8 := by
  rw [bits, List.length_map, List.length_range]

theorem getLsbD_word (bs : List Bool) (i : Nat) :
    (word w bs).getLsbD i = (decide (i < w) && bs.getD i false) := by
  rw [word, BitVec.getLsbD_setWidth, BitVec.getLsbD_ofBoolListLE]

theorem word_cons (b : Bool) (bs : List Bool) :
    word w (b :: bs) = (BitVec.ofBool b).setWidth w ^^^ (word w bs <<< 1) := by
  refine BitVec.eq_of_getLsbD_eq fun i hi => ?_
  rw [getLsbD_word, BitVec.getLsbD_xor, BitVec.getLsbD_setWidth, BitVec.getLsbD_ofBool,
    BitVec.getLsbD_shiftLeft, getLsbD_word]
  cases i with
  | zero => simp [hi]
  | succ i => simp [hi, Nat.lt_of_succ_lt hi]

theorem word_injective {bs bs' : List Bool} (hle : bs.length ≤ w) (hlen : bs'.length = bs.length)
    (h : word w bs = word w bs') : bs = bs' := by
  refine List.ext_getElem hlen.symm fun i hi hi' => ?_
  have hget := congrArg (BitVec.getLsbD · i) h
  have hiw : i < w := Nat.lt_of_lt_of_le hi hle
  simpa only [getLsbD_word, hiw, decide_true, Bool.true_and, List.getD_eq_getElem _ _ hi,
    List.getD_eq_getElem _ _ hi'] using hget

/-- With a place free at the top, a zero drops out of what was moved up. -/
theorem shift_word {bs : List Bool} (hlen : bs.length < w) :
    shift P (word w bs <<< 1) = word w bs := by
  have hlow : (word w bs <<< 1).getLsbD 0 = false := by
    rw [BitVec.getLsbD_shiftLeft]
    simp
  rw [shift, if_neg (by simp [hlow])]
  refine BitVec.eq_of_getLsbD_eq fun i hi => ?_
  rw [BitVec.getLsbD_ushiftRight, BitVec.getLsbD_shiftLeft, Nat.add_comm 1 i, Nat.add_sub_cancel,
    getLsbD_word]
  by_cases hi' : i + 1 < w
  · simp [hi']
  · have hnone : bs.getD i false = false := List.getD_eq_default _ _ (by omega)
    rw [hnone]
    simp

theorem foldl_bitStep (P : BitVec w) {bs : List Bool} (c : BitVec w) (hlen : bs.length ≤ w) :
    bs.foldl (bitStep P) c = (shift P)^[bs.length] (c ^^^ word w bs) := by
  induction bs generalizing c with
  | nil =>
    refine BitVec.eq_of_getLsbD_eq fun i hi => ?_
    simp [getLsbD_word]
  | cons b bs ih =>
    have hshift : shift P (c ^^^ word w (b :: bs)) = bitStep P c b ^^^ word w bs := by
      rw [word_cons, ← BitVec.xor_assoc, shift_xor, shift_word hlen, bitStep]
    rw [List.foldl_cons, ih _ (Nat.le_of_succ_le hlen), ← hshift, List.length_cons,
      Function.iterate_succ_apply]

/-- A byte is its eight bits. -/
theorem byteStep_bits (hw : 8 ≤ w) (c : BitVec w) (b : UInt8) :
    byteStep P c b = (bits b).foldl (bitStep P) c := by
  have hword : word w (bits b) = b.toBitVec.setWidth w := by
    refine BitVec.eq_of_getLsbD_eq fun i hi => ?_
    rw [getLsbD_word, BitVec.getLsbD_setWidth, bits, List.getD_eq_getElem?_getD, List.getElem?_map]
    by_cases h8 : i < 8
    · rw [List.getElem?_range h8]
      simp
    · rw [List.getElem?_eq_none (by simpa using h8), BitVec.getLsbD_of_ge _ _ (Nat.le_of_not_lt h8)]
      simp
  rw [foldl_bitStep P c (by rwa [length_bits]), hword, length_bits, byteStep]

theorem foldl_byteStep_bits (hw : 8 ≤ w) (c : BitVec w) (data : List UInt8) :
    data.foldl (byteStep P) c = (data.flatMap bits).foldl (bitStep P) c := by
  induction data generalizing c with
  | nil => rfl
  | cons b data ih => rw [List.foldl_cons, ih, byteStep_bits hw, List.flatMap_cons, List.foldl_append]

/-! ## 5. Nothing is forgotten -/

theorem shift_injective (hP : P.getLsbD (w - 1) = true) : Function.Injective (shift P) := by
  have hzero : ∀ c, shift P c = 0#w → c = 0#w := by
    intro c hc
    rw [shift] at hc
    refine BitVec.eq_of_getLsbD_eq fun i hi => ?_
    split at hc
    case isTrue hlow =>
      -- the top place of `c >>> 1` is free, that of `P` is not
      have htop := congrArg (BitVec.getLsbD · (w - 1)) hc
      have hfree : (c >>> 1).getLsbD (w - 1) = false := by
        rw [BitVec.getLsbD_ushiftRight, BitVec.getLsbD_of_ge _ _ (by omega)]
      simp [BitVec.getLsbD_xor, hfree, hP] at htop
    case isFalse hlow =>
      cases i with
      | zero => simpa using hlow
      | succ i =>
        have hget := congrArg (BitVec.getLsbD · i) hc
        simpa [BitVec.getLsbD_ushiftRight, Nat.add_comm 1 i] using hget
  intro c d h
  have hsum : shift P (c ^^^ d) = 0#w := by rw [shift_xor, h, BitVec.xor_self]
  have hcd := hzero _ hsum
  calc c = (c ^^^ d) ^^^ d := by rw [BitVec.xor_assoc, BitVec.xor_self, BitVec.xor_zero]
    _ = d := by rw [hcd, BitVec.zero_xor]

theorem bitStep_injective (hP : P.getLsbD (w - 1) = true) (b : Bool) :
    Function.Injective fun c => bitStep P c b := by
  intro c d h
  have hxor := shift_injective hP h
  calc c = (c ^^^ (BitVec.ofBool b).setWidth w) ^^^ (BitVec.ofBool b).setWidth w := by
        rw [BitVec.xor_assoc, BitVec.xor_self, BitVec.xor_zero]
    _ = d := by rw [hxor, BitVec.xor_assoc, BitVec.xor_self, BitVec.xor_zero]

theorem foldl_bitStep_injective (hP : P.getLsbD (w - 1) = true) (bs : List Bool) :
    Function.Injective fun c => bs.foldl (bitStep P) c := by
  induction bs with
  | nil => exact fun _ _ h => h
  | cons b bs ih => exact ih.comp (bitStep_injective hP b)

/-- **Bursts**: two messages that are the same but for at most `w` bits in one place have the same
check value only if these are the same too. -/
theorem checksum_burst {init mask : BitVec w} (hw : 8 ≤ w) (hP : P.getLsbD (w - 1) = true)
    {data data' : List UInt8} {front burst burst' back : List Bool}
    (hdata : data.flatMap bits = front ++ burst ++ back)
    (hdata' : data'.flatMap bits = front ++ burst' ++ back)
    (hle : burst.length ≤ w) (hlen : burst'.length = burst.length)
    (h : checksum P init mask data = checksum P init mask data') : burst = burst' := by
  have hfold : data.foldl (byteStep P) init = data'.foldl (byteStep P) init := by
    have hmask := congrArg (· ^^^ mask) h
    simpa [checksum, BitVec.xor_assoc] using hmask
  rw [foldl_byteStep_bits hw, foldl_byteStep_bits hw, hdata, hdata', List.foldl_append,
    List.foldl_append, List.foldl_append, List.foldl_append] at hfold
  have hburst := foldl_bitStep_injective hP back hfold
  rw [foldl_bitStep P _ hle, foldl_bitStep P _ (Nat.le_trans (Nat.le_of_eq hlen) hle), hlen] at hburst
  have hword := (shift_injective hP).iterate _ hburst
  refine word_injective hle hlen ?_
  have hxor := congrArg (front.foldl (bitStep P) init ^^^ ·) hword
  simpa [← BitVec.xor_assoc] using hxor

/-! ## 6. Every value can be reached -/

theorem surjective_of_injective {f : BitVec w → BitVec w} (hf : Function.Injective f) :
    Function.Surjective f := by
  have : Finite (BitVec w) := Finite.of_injective BitVec.toFin fun _ _ h => BitVec.eq_of_toFin_eq h
  exact Finite.injective_iff_surjective.mp hf

theorem word_bits (x : BitVec w) : word w ((List.range w).map x.getLsbD) = x := by
  refine BitVec.eq_of_getLsbD_eq fun i hi => ?_
  rw [getLsbD_word, List.getD_eq_getElem _ _ (by simpa using hi)]
  simp [hi]

theorem bits_injective : Function.Injective bits := by
  intro b c h
  refine UInt8.toBitVec_inj.mp (BitVec.eq_of_getLsbD_eq fun i hi => ?_)
  have hget := congrArg (·[i]?) h
  simpa [bits, List.getElem?_range hi] using hget

/-- Eight bits are those of a byte. -/
theorem exists_byte {bs : List Bool} (hlen : bs.length = 8) : ∃ b, bits b = bs := by
  refine ⟨⟨word 8 bs⟩, List.ext_getElem (by rw [length_bits, hlen]) fun i hi hi' => ?_⟩
  have hi8 : i < 8 := by rwa [length_bits] at hi
  have hget := getLsbD_word (w := 8) bs i
  rw [List.getD_eq_getElem _ _ hi'] at hget
  simpa [bits, hi8] using hget

theorem exists_bytes {k : Nat} {bs : List Bool} (hlen : bs.length = 8 * k) :
    ∃ block : List UInt8, block.length = k ∧ block.flatMap bits = bs := by
  induction k generalizing bs with
  | zero => exact ⟨[], rfl, (List.length_eq_zero_iff.mp hlen).symm⟩
  | succ k ih =>
    have htake : (bs.take 8).length = 8 := by rw [List.length_take]; omega
    obtain ⟨b, hb⟩ := exists_byte htake
    have hdrop : (bs.drop 8).length = 8 * k := by rw [List.length_drop]; omega
    obtain ⟨block, hblock, hbits⟩ := ih hdrop
    exact ⟨b :: block, congrArg (· + 1) hblock,
      by rw [List.flatMap_cons, hb, hbits, List.take_append_drop]⟩

theorem length_flatMap_bits (data : List UInt8) : (data.flatMap bits).length = 8 * data.length := by
  induction data with
  | nil => rfl
  | cons b data ih =>
    rw [List.flatMap_cons, List.length_append, ih, length_bits, List.length_cons]
    omega

theorem flatMap_bits_injective {data data' : List UInt8}
    (h : data.flatMap bits = data'.flatMap bits) : data = data' := by
  induction data generalizing data' with
  | nil =>
    have hlen := congrArg List.length h
    rw [length_flatMap_bits, length_flatMap_bits, List.length_nil] at hlen
    exact (List.length_eq_zero_iff.mp (by omega)).symm
  | cons b data ih =>
    cases data' with
    | nil =>
      have hlen := congrArg List.length h
      rw [length_flatMap_bits, length_flatMap_bits, List.length_cons, List.length_nil] at hlen
      omega
    | cons b' data' =>
      rw [List.flatMap_cons, List.flatMap_cons] at h
      obtain ⟨hb, hdata⟩ := List.append_inj h (by rw [length_bits, length_bits])
      rw [bits_injective hb, ih hdata]

/-- **Patches**: at any place of a message there is exactly one block, as long as the remainder,
that gives the whole a wanted check value. -/
theorem checksum_patch {init mask : BitVec w} {k : Nat} (hk : w = 8 * k) (hpos : 0 < k)
    (hP : P.getLsbD (w - 1) = true) (front back : List UInt8) (value : BitVec w) :
    ∃! block : List UInt8,
      block.length = k ∧ checksum P init mask (front ++ block ++ back) = value := by
  have hw : 8 ≤ w := by omega
  obtain ⟨before, hbefore⟩ :=
    surjective_of_injective (foldl_bitStep_injective hP (back.flatMap bits)) (value ^^^ mask)
  obtain ⟨start, hstart⟩ := surjective_of_injective ((shift_injective hP).iterate w) before
  have hfold : ∀ block, checksum P init mask (front ++ block ++ back) =
      (back.flatMap bits).foldl (bitStep P)
        ((block.flatMap bits).foldl (bitStep P) (front.foldl (byteStep P) init)) ^^^ mask := by
    intro block
    rw [checksum, List.foldl_append, List.foldl_append, foldl_byteStep_bits hw _ back,
      foldl_byteStep_bits hw _ block]
  generalize hc : front.foldl (byteStep P) init = c at hfold
  have hlen : ((List.range w).map (c ^^^ start).getLsbD).length = 8 * k := by simpa using hk
  obtain ⟨block, hblock, hbits⟩ := exists_bytes hlen
  -- read as a whole, the block turns the remainder into `start`
  have hvalue : checksum P init mask (front ++ block ++ back) = value := by
    rw [hfold, hbits, foldl_bitStep P c (by simp), word_bits, ← BitVec.xor_assoc, BitVec.xor_self,
      BitVec.zero_xor, List.length_map, List.length_range, hstart]
    rw [show (back.flatMap bits).foldl (bitStep P) before = value ^^^ mask from hbefore,
      BitVec.xor_assoc, BitVec.xor_self, BitVec.xor_zero]
  refine ⟨block, ⟨hblock, hvalue⟩, fun other hother => flatMap_bits_injective ?_⟩
  have hflat : ∀ data : List UInt8, (front ++ data ++ back).flatMap bits =
      front.flatMap bits ++ data.flatMap bits ++ back.flatMap bits := by
    intro data
    rw [List.flatMap_append, List.flatMap_append]
  refine checksum_burst hw hP (hflat other) (hflat block) ?_ ?_ (hother.2.trans hvalue.symm)
  · rw [length_flatMap_bits, hother.1, hk]
  · rw [length_flatMap_bits, length_flatMap_bits, hblock, hother.1]

end Lib.Crc
