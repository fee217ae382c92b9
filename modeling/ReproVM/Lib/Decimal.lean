/-
# Decimal numerals in bytes

`decimal` is what `%d` writes for a number that is not negative; the value of its digits is the
number again (`digitsValue_decimal`), and for an integer with a sign in front of them
(`decimalInt`) that is settled by the first byte.
-/
import ReproVM.Lib.Bytes
import Mathlib.Algebra.Group.Nat.Defs

namespace Bytes

def isDigit (c : UInt8) : Bool := 48 ≤ c && c ≤ 57

/-- The number that digits spell, most significant first. -/
def digitsValue (s : Bytes) : Nat := s.foldl (fun n c => 10 * n + (c.toNat - 48)) 0

def decimal (n : Nat) : Bytes := (Nat.toDigits 10 n).map fun c => UInt8.ofNat c.toNat

def decimalInt (x : Int) : Bytes := if x < 0 then 45 :: decimal x.natAbs else decimal x.natAbs

theorem toNat_ofChar {c : Char} (hc : c.isDigit) :
    (UInt8.ofNat c.toNat).toNat = c.toNat ∧ 48 ≤ c.toNat ∧ c.toNat ≤ 57 := by
  have h := hc
  simp only [Char.isDigit, Bool.and_eq_true, decide_eq_true_eq, UInt32.le_iff_toNat_le] at h
  have h1 : 48 ≤ c.toNat := h.1
  have h2 : c.toNat ≤ 57 := h.2
  refine ⟨?_, h1, h2⟩
  rw [UInt8.toNat_ofNat']
  omega

theorem isDigit_of_mem_decimal {n : Nat} {c : UInt8} (hc : c ∈ decimal n) : isDigit c := by
  obtain ⟨d, hd, rfl⟩ := List.mem_map.mp hc
  obtain ⟨h1, h2, h3⟩ := toNat_ofChar (Nat.isDigit_of_mem_toDigits (by decide) (by decide) hd)
  simp only [isDigit, Bool.and_eq_true, decide_eq_true_eq, UInt8.le_iff_toNat_le, h1]
  exact ⟨h2, h3⟩

theorem decimal_ne_nil (n : Nat) : decimal n ≠ [] := by
  simp [decimal, Nat.toDigits_ne_nil]

/-- **Reading back what was written**. -/
theorem digitsValue_decimal (n : Nat) : digitsValue (decimal n) = n := by
  rw [digitsValue, decimal, List.foldl_map]
  refine (List.foldl_ext _ _ 0 fun m c hc => ?_).trans Nat.ofDigitChars_ten_toDigits
  rw [(toNat_ofChar (Nat.isDigit_of_mem_toDigits (by decide) (by decide) hc)).1]
  rfl

theorem length_decimal_le {n k : Nat} (hk : 0 < k) (hn : n < 10 ^ k) : (decimal n).length ≤ k := by
  rw [decimal, List.length_map]
  exact (Nat.length_toDigits_le_iff (by decide) hk).mpr hn

end Bytes
