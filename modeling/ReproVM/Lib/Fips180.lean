/-
# SHA-256 as FIPS 180-4 defines it

A transcription of the standard for messages that are whole numbers of bytes: the functions of
§4.1.2, the constants of §4.2.2 and §5.3.3, the padding of §5.1.1, the parsing of §5.2.1 and
the computation of §6.2.  Nothing here looks at an implementation.  The message schedule is the
recurrence of the standard and not a table, the padding is a formula in the length and not a
buffer, and the constants are tied to the cube and square roots they are taken from
(`K_cubeRoot`, `H0_sqrt`).
-/
import Mathlib.Data.List.Basic
import Mathlib.Tactic.NormNum

namespace Fips180

/-! ## 1. Functions on words (§3.2, §4.1.2) -/

/-- `ROTR^n(x)`. -/
def ROTR (n x : UInt32) : UInt32 := (x >>> n) ||| (x <<< (32 - n))

/-- `SHR^n(x)`. -/
def SHR (n x : UInt32) : UInt32 := x >>> n

def Ch (x y z : UInt32) : UInt32 := (x &&& y) ^^^ (~~~x &&& z)
def Maj (x y z : UInt32) : UInt32 := (x &&& y) ^^^ (x &&& z) ^^^ (y &&& z)
def bigSigma0 (x : UInt32) : UInt32 := ROTR 2 x ^^^ ROTR 13 x ^^^ ROTR 22 x
def bigSigma1 (x : UInt32) : UInt32 := ROTR 6 x ^^^ ROTR 11 x ^^^ ROTR 25 x
def sigma0 (x : UInt32) : UInt32 := ROTR 7 x ^^^ ROTR 18 x ^^^ SHR 3 x
def sigma1 (x : UInt32) : UInt32 := ROTR 17 x ^^^ ROTR 19 x ^^^ SHR 10 x

/-! ## 2. Constants (§4.2.2, §5.3.3) -/

/-- The constants `K_t`. -/
def K : List UInt32 :=
  [0x428a2f98, 0x71374491, 0xb5c0fbcf, 0xe9b5dba5, 0x3956c25b, 0x59f111f1, 0x923f82a4, 0xab1c5ed5,
   0xd807aa98, 0x12835b01, 0x243185be, 0x550c7dc3, 0x72be5d74, 0x80deb1fe, 0x9bdc06a7, 0xc19bf174,
   0xe49b69c1, 0xefbe4786, 0x0fc19dc6, 0x240ca1cc, 0x2de92c6f, 0x4a7484aa, 0x5cb0a9dc, 0x76f988da,
   0x983e5152, 0xa831c66d, 0xb00327c8, 0xbf597fc7, 0xc6e00bf3, 0xd5a79147, 0x06ca6351, 0x14292967,
   0x27b70a85, 0x2e1b2138, 0x4d2c6dfc, 0x53380d13, 0x650a7354, 0x766a0abb, 0x81c2c92e, 0x92722c85,
   0xa2bfe8a1, 0xa81a664b, 0xc24b8b70, 0xc76c51a3, 0xd192e819, 0xd6990624, 0xf40e3585, 0x106aa070,
   0x19a4c116, 0x1e376c08, 0x2748774c, 0x34b0bcb5, 0x391c0cb3, 0x4ed8aa4a, 0x5b9cca4f, 0x682e6ff3,
   0x748f82ee, 0x78a5636f, 0x84c87814, 0x8cc70208, 0x90befffa, 0xa4506ceb, 0xbef9a3f7, 0xc67178f2]

/-- Eight words: a hash value `H_0 .. H_7`, or the working variables `a .. h`. -/
structure Words8 where
  a : UInt32
  b : UInt32
  c : UInt32
  d : UInt32
  e : UInt32
  f : UInt32
  g : UInt32
  h : UInt32
deriving DecidableEq

/-- The initial hash value `H^(0)`. -/
def H0 : Words8 :=
  ⟨0x6a09e667, 0xbb67ae85, 0x3c6ef372, 0xa54ff53a, 0x510e527f, 0x9b05688c, 0x1f83d9ab, 0x5be0cd19⟩

namespace Words8

def toList (s : Words8) : List UInt32 := [s.a, s.b, s.c, s.d, s.e, s.f, s.g, s.h]

/-- Word by word addition modulo `2^32`. -/
def add (s t : Words8) : Words8 :=
  ⟨s.a + t.a, s.b + t.b, s.c + t.c, s.d + t.d, s.e + t.e, s.f + t.f, s.g + t.g, s.h + t.h⟩

end Words8

/-- The first 64 primes, whose roots the constants are taken from. -/
def primes : List Nat :=
  [2, 3, 5, 7, 11, 13, 17, 19, 23, 29, 31, 37, 41, 43, 47, 53, 59, 61, 67, 71, 73, 79, 83, 89, 97,
   101, 103, 107, 109, 113, 127, 131, 137, 139, 149, 151, 157, 163, 167, 173, 179, 181, 191, 193,
   197, 199, 211, 223, 227, 229, 233, 239, 241, 251, 257, 263, 269, 271, 277, 281, 283, 293, 307,
   311]

/-- `K_t` is the first 32 bits of the fractional part of the cube root of the `t`-th prime:
with the integer part put back, `r / 2^32` is that root cut off after 32 binary places. -/
theorem K_cubeRoot : List.Forall₂ (fun p k => ∃ n < 7,
    (n * 2 ^ 32 + k.toNat) ^ 3 ≤ p * 2 ^ 96 ∧ p * 2 ^ 96 < (n * 2 ^ 32 + k.toNat + 1) ^ 3)
    primes K := by
  decide +kernel

/-- `H^(0)_i` is the first 32 bits of the fractional part of the square root of the `i`-th
prime. -/
theorem H0_sqrt : List.Forall₂ (fun p k => ∃ n < 5,
    (n * 2 ^ 32 + k.toNat) ^ 2 ≤ p * 2 ^ 64 ∧ p * 2 ^ 64 < (n * 2 ^ 32 + k.toNat + 1) ^ 2)
    (primes.take 8) H0.toList := by
  decide +kernel

/-! ## 3. Preprocessing (§5) -/

/-- The number `k` of zero bits after the closing one bit: the smallest solution of
`l + 1 + k ≡ 448 (mod 512)`. -/
def zeroBits (l : Nat) : Nat := (960 - (l + 1) % 512) % 512

theorem zeroBits_solves (l : Nat) : (l + 1 + zeroBits l) % 512 = 448 := by
  unfold zeroBits; omega

theorem zeroBits_least (l k : Nat) (h : (l + 1 + k) % 512 = 448) : zeroBits l ≤ k := by
  unfold zeroBits; omega

/-- The 64-bit big-endian block that ends the padding. -/
def lengthBlock (l : Nat) : List UInt8 :=
  (List.range 8).map fun i => UInt8.ofNat (l / 256 ^ (7 - i))

/-- The padded message.  A message of whole bytes has `l` divisible by 8, so the closing one
bit and the first seven zero bits are the byte `0x80` and the rest are zero bytes. -/
def pad (m : List UInt8) : List UInt8 :=
  m ++ 0x80 :: List.replicate ((zeroBits (8 * m.length) - 7) / 8) 0 ++ lengthBlock (8 * m.length)

/-- The `i`-th block of 512 bits. -/
def block (m : List UInt8) (i : Nat) : List UInt8 := (m.drop (64 * i)).take 64

/-- Word `t` of a block, big-endian. -/
def word (b : List UInt8) (t : Nat) : UInt32 :=
  UInt32.ofNat ((b.getD (4 * t) 0).toNat * 2 ^ 24 + (b.getD (4 * t + 1) 0).toNat * 2 ^ 16 +
    (b.getD (4 * t + 2) 0).toNat * 2 ^ 8 + (b.getD (4 * t + 3) 0).toNat)

/-! ## 4. Hash computation (§6.2.2) -/

/-- The message schedule `W_t` of a block. -/
def W (b : List UInt8) (t : Nat) : UInt32 :=
  if t < 16 then word b t
  else sigma1 (W b (t - 2)) + W b (t - 7) + sigma0 (W b (t - 15)) + W b (t - 16)

/-- One round on the working variables, with `k = K_t` and `w = W_t`. -/
def round (s : Words8) (k w : UInt32) : Words8 :=
  let T1 := s.h + bigSigma1 s.e + Ch s.e s.f s.g + k + w
  let T2 := bigSigma0 s.a + Maj s.a s.b s.c
  ⟨T1 + T2, s.a, s.b, s.c, s.d + T1, s.e, s.f, s.g⟩

/-- The intermediate hash value after one block. -/
def compress (H : Words8) (b : List UInt8) : Words8 :=
  H.add ((List.range 64).foldl (fun s t => round s (K.getD t 0) (W b t)) H)

/-- The hash value after every whole block of `m`, from `H`. -/
def absorb (H : Words8) (m : List UInt8) : Words8 :=
  (List.range (m.length / 64)).foldl (fun s i => compress s (block m i)) H

/-- The four bytes of a word, big-endian. -/
def wordBytes (w : UInt32) : List UInt8 :=
  (List.range 4).map fun i => UInt8.ofNat (w.toNat / 256 ^ (3 - i))

/-- The message digest of a byte string. -/
def sha256 (m : List UInt8) : List UInt8 := (absorb H0 (pad m)).toList.flatMap wordBytes

/-! ## 5. Laws of the block structure -/

@[simp] theorem lengthBlock_length (l : Nat) : (lengthBlock l).length = 8 := by
  simp [lengthBlock]

@[simp] theorem wordBytes_length (w : UInt32) : (wordBytes w).length = 4 := by
  simp [wordBytes]

@[simp] theorem sha256_length (m : List UInt8) : (sha256 m).length = 32 := by
  simp [sha256, Words8.toList]

theorem W_lt (b : List UInt8) {t : Nat} (h : t < 16) : W b t = word b t := by
  rw [W, if_pos h]

theorem W_ge (b : List UInt8) {t : Nat} (h : 16 ≤ t) :
    W b t = sigma1 (W b (t - 2)) + W b (t - 7) + sigma0 (W b (t - 15)) + W b (t - 16) := by
  rw [W, if_neg (by omega)]

@[simp] theorem absorb_nil (H : Words8) : absorb H [] = H := rfl

/-- Blocks are absorbed in order: the last one is compressed into what came before. -/
theorem absorb_append_block (H : Words8) {m b : List UInt8} (hm : m.length % 64 = 0)
    (hb : b.length = 64) : absorb H (m ++ b) = compress (absorb H m) b := by
  have hn : (m ++ b).length / 64 = m.length / 64 + 1 := by simp [hb]
  have hold : ∀ i < m.length / 64, block (m ++ b) i = block m i := by
    intro i hi
    have h1 : 64 * i + 64 ≤ m.length := by omega
    simp only [block]
    rw [List.drop_append_of_le_length (by omega), List.take_append_of_le_length (by simp; omega)]
  have hlast : block (m ++ b) (m.length / 64) = b := by
    have h1 : 64 * (m.length / 64) = m.length := by omega
    simp only [block, h1, List.drop_left]
    exact List.take_of_length_le (by omega)
  rw [absorb, hn, List.range_succ, List.foldl_append]
  simp only [List.foldl_cons, List.foldl_nil, hlast]
  have hsame : (List.range (m.length / 64)).foldl (fun s i => compress s (block (m ++ b) i)) H
      = absorb H m :=
    List.foldl_ext _ _ _ fun s i hi => by rw [hold i (List.mem_range.mp hi)]
  rw [hsame]

end Fips180
