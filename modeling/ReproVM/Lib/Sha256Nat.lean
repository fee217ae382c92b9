/-
# SHA-256 on natural numbers

The kernel adds, shifts and masks natural numbers in one step, but a word of the standard only
through what it is made of.  Here are the functions of the standard on the values of the words.
One loop goes over the constants `K_t`; its arguments are the sixteen words of the schedule that
the rounds to come are made from and the eight working variables, each of them evaluated before
the next round sees it.  `sha256_eq_digest` is that this gives the digest of the standard, so a
closed text can be hashed where `Fips180.sha256` itself would take long.
-/
import ReproVM.Lib.Fips180
import Mathlib.Data.List.GetD

namespace Fips180

variable {b m : List UInt8}

/-! ## 1. Words as numbers -/

namespace OnNat

/-- `f n`, where `n` is evaluated first. -/
def evalFirst {α : Type} (n : Nat) (f : Nat → α) : α :=
  match n with
  | 0 => f 0
  | n + 1 => f (n + 1)

@[simp] theorem evalFirst_eq {α : Type} (n : Nat) (f : Nat → α) : evalFirst n f = f n := by
  cases n <;> rfl

def rotr (n x : Nat) : Nat := x >>> n ||| x <<< (32 - n) % 4294967296
def ch (x y z : Nat) : Nat := (x &&& y) ^^^ ((4294967295 - x) &&& z)
def maj (x y z : Nat) : Nat := (x &&& y) ^^^ (x &&& z) ^^^ (y &&& z)
def bigSigma0 (x : Nat) : Nat := rotr 2 x ^^^ rotr 13 x ^^^ rotr 22 x
def bigSigma1 (x : Nat) : Nat := rotr 6 x ^^^ rotr 11 x ^^^ rotr 25 x
def sigma0 (x : Nat) : Nat := rotr 7 x ^^^ rotr 18 x ^^^ x >>> 3
def sigma1 (x : Nat) : Nat := rotr 17 x ^^^ rotr 19 x ^^^ x >>> 10

end OnNat

open OnNat (evalFirst evalFirst_eq)

theorem toNat_ROTR {n : UInt32} (h0 : 0 < n.toNat) (h : n.toNat < 32) (x : UInt32) :
    (ROTR n x).toNat = OnNat.rotr n.toNat x.toNat := by
  have hsub : (32 - n).toNat = 32 - n.toNat :=
    UInt32.toNat_sub_of_le _ _ (UInt32.le_iff_toNat_le.mpr (Nat.le_of_lt h))
  rw [ROTR, UInt32.toNat_or, UInt32.toNat_shiftRight, UInt32.toNat_shiftLeft, hsub,
    Nat.mod_eq_of_lt h, Nat.mod_eq_of_lt (by omega : 32 - n.toNat < 32)]
  rfl

theorem toNat_bigSigma0 (x : UInt32) : (bigSigma0 x).toNat = OnNat.bigSigma0 x.toNat := by
  rw [bigSigma0, UInt32.toNat_xor, UInt32.toNat_xor, toNat_ROTR (by decide) (by decide),
    toNat_ROTR (by decide) (by decide), toNat_ROTR (by decide) (by decide)]
  rfl

theorem toNat_bigSigma1 (x : UInt32) : (bigSigma1 x).toNat = OnNat.bigSigma1 x.toNat := by
  rw [bigSigma1, UInt32.toNat_xor, UInt32.toNat_xor, toNat_ROTR (by decide) (by decide),
    toNat_ROTR (by decide) (by decide), toNat_ROTR (by decide) (by decide)]
  rfl

theorem toNat_sigma0 (x : UInt32) : (sigma0 x).toNat = OnNat.sigma0 x.toNat := by
  rw [sigma0, SHR, UInt32.toNat_xor, UInt32.toNat_xor, toNat_ROTR (by decide) (by decide),
    toNat_ROTR (by decide) (by decide), UInt32.toNat_shiftRight]
  rfl

theorem toNat_sigma1 (x : UInt32) : (sigma1 x).toNat = OnNat.sigma1 x.toNat := by
  rw [sigma1, SHR, UInt32.toNat_xor, UInt32.toNat_xor, toNat_ROTR (by decide) (by decide),
    toNat_ROTR (by decide) (by decide), UInt32.toNat_shiftRight]
  rfl

theorem toNat_Ch (x y z : UInt32) : (Ch x y z).toNat = OnNat.ch x.toNat y.toNat z.toNat := by
  rw [Ch, UInt32.toNat_xor, UInt32.toNat_and, UInt32.toNat_and, UInt32.toNat_not]
  rfl

theorem toNat_Maj (x y z : UInt32) : (Maj x y z).toNat = OnNat.maj x.toNat y.toNat z.toNat := by
  rw [Maj, UInt32.toNat_xor, UInt32.toNat_xor, UInt32.toNat_and, UInt32.toNat_and,
    UInt32.toNat_and]
  rfl

/-! ## 2. The rounds -/

namespace OnNat

/-- The rounds for the constants that are left; `w0` is the word of the schedule for the first of
them. -/
def rounds (ks : List UInt32)
    (w0 w1 w2 w3 w4 w5 w6 w7 w8 w9 w10 w11 w12 w13 w14 w15 a b c d e f g h : Nat) : List Nat :=
  match ks with
  | [] => [a, b, c, d, e, f, g, h]
  | k :: ks =>
    evalFirst ((h + bigSigma1 e + ch e f g + k.toNat + w0) % 4294967296) fun T1 =>
    evalFirst ((T1 + (bigSigma0 a + maj a b c)) % 4294967296) fun a' =>
    evalFirst ((d + T1) % 4294967296) fun e' =>
    evalFirst ((sigma1 w14 + w9 + sigma0 w1 + w0) % 4294967296) fun w16 =>
      rounds ks w1 w2 w3 w4 w5 w6 w7 w8 w9 w10 w11 w12 w13 w14 w15 w16 a' a b c e' e f g

/-- One block, with the words `w`. -/
def compress (w : Nat → Nat) : List Nat → List Nat
  | [a, b, c, d, e, f, g, h] =>
    List.zipWith (fun x y => (x + y) % 4294967296) [a, b, c, d, e, f, g, h]
      (rounds K (w 0) (w 1) (w 2) (w 3) (w 4) (w 5) (w 6) (w 7) (w 8) (w 9) (w 10) (w 11) (w 12)
        (w 13) (w 14) (w 15) a b c d e f g h)
  | _ => []

/-- Four bytes are a word. -/
def words : List UInt8 → List Nat
  | a :: b :: c :: d :: m =>
    evalFirst (((a.toNat * 256 + b.toNat) * 256 + c.toNat) * 256 + d.toNat) (· :: words m)
  | _ => []

/-- The digest of a message. -/
def digest (m : List UInt8) : List UInt8 :=
  let ws := words (pad m)
  ((List.range ((pad m).length / 64)).foldl
      (fun H i => compress (fun t => (ws.drop (16 * i)).getD t 0) H)
      (H0.toList.map UInt32.toNat)).flatMap fun w =>
    (List.range 4).map fun i => UInt8.ofNat (w / 256 ^ (3 - i))

end OnNat

/-- The values of the eight words. -/
def Words8.toNats (s : Words8) : List Nat := s.toList.map UInt32.toNat

/-- The next word of the schedule. -/
theorem toNat_W (b : List UInt8) (t : Nat) :
    (OnNat.sigma1 (W b (t + 14)).toNat + (W b (t + 9)).toNat + OnNat.sigma0 (W b (t + 1)).toNat +
      (W b t).toNat) % 4294967296 = (W b (t + 16)).toNat := by
  rw [W_ge b (by omega : 16 ≤ t + 16)]
  simp only [UInt32.toNat_add, toNat_sigma0, toNat_sigma1, Nat.add_sub_cancel,
    show t + 16 - 2 = t + 14 by omega, show t + 16 - 7 = t + 9 by omega,
    show t + 16 - 15 = t + 1 by omega]
  omega

/-- From round `t` on. -/
theorem rounds_eq (b : List UInt8) (ks : List UInt32) (t : Nat) (s : Words8) :
    OnNat.rounds (ks.drop t) (W b t).toNat (W b (t + 1)).toNat (W b (t + 2)).toNat
      (W b (t + 3)).toNat (W b (t + 4)).toNat (W b (t + 5)).toNat (W b (t + 6)).toNat
      (W b (t + 7)).toNat (W b (t + 8)).toNat (W b (t + 9)).toNat (W b (t + 10)).toNat
      (W b (t + 11)).toNat (W b (t + 12)).toNat (W b (t + 13)).toNat (W b (t + 14)).toNat
      (W b (t + 15)).toNat s.a.toNat s.b.toNat s.c.toNat s.d.toNat s.e.toNat s.f.toNat s.g.toNat
      s.h.toNat =
    ((List.range' t (ks.length - t)).foldl (fun s i => round s (ks.getD i 0) (W b i)) s).toNats := by
  induction hn : ks.length - t generalizing t s with
  | zero => rw [List.drop_eq_nil_of_le (by omega)]; rfl
  | succ n ih =>
    have ht : t < ks.length := by omega
    rw [List.drop_eq_getElem_cons ht, List.range'_succ, List.foldl_cons]
    have hk : ks.getD t 0 = ks[t] := List.getD_eq_getElem _ _ ht
    have hT1 : (s.h.toNat + OnNat.bigSigma1 s.e.toNat + OnNat.ch s.e.toNat s.f.toNat s.g.toNat +
        (ks[t]).toNat + (W b t).toNat) % 4294967296 =
          (s.h + bigSigma1 s.e + Ch s.e s.f s.g + ks.getD t 0 + W b t).toNat := by
      simp only [UInt32.toNat_add, toNat_bigSigma1, toNat_Ch, hk]
      omega
    have hT2 : (bigSigma0 s.a + Maj s.a s.b s.c).toNat =
        (OnNat.bigSigma0 s.a.toNat + OnNat.maj s.a.toNat s.b.toNat s.c.toNat) % 4294967296 := by
      rw [UInt32.toNat_add, toNat_bigSigma0, toNat_Maj]
    have ha : ∀ T1 : UInt32, (T1.toNat + (OnNat.bigSigma0 s.a.toNat +
        OnNat.maj s.a.toNat s.b.toNat s.c.toNat)) % 4294967296 =
          (T1 + (bigSigma0 s.a + Maj s.a s.b s.c)).toNat := by
      intro T1
      rw [UInt32.toNat_add, hT2, Nat.add_mod_mod]
    have he : ∀ T1 : UInt32, (s.d.toNat + T1.toNat) % 4294967296 = (s.d + T1).toNat :=
      fun T1 => (UInt32.toNat_add ..).symm
    simp only [OnNat.rounds, evalFirst_eq]
    rw [hT1, ha, he, toNat_W]
    exact ih (t + 1) (round s (ks.getD t 0) (W b t)) (by omega)

theorem compress_eq (H : Words8) (b : List UInt8) {w : Nat → Nat}
    (hw : ∀ t < 16, w t = (word b t).toNat) :
    OnNat.compress w H.toNats = (compress H b).toNats := by
  have hW : ∀ t < 16, w t = (W b t).toNat := fun t ht => by rw [hw t ht, W_lt b ht]
  have hr := rounds_eq b K 0 H
  rw [List.drop_zero] at hr
  have hlen : List.range' 0 (K.length - 0) = List.range 64 := by decide
  rw [hlen] at hr
  rw [compress]
  generalize (List.range 64).foldl (fun s t => round s (K.getD t 0) (W b t)) H = s at hr ⊢
  have hH : H.toNats = [H.a.toNat, H.b.toNat, H.c.toNat, H.d.toNat, H.e.toNat, H.f.toNat,
    H.g.toNat, H.h.toNat] := rfl
  rw [hH, OnNat.compress, hW 0 (by decide), hW 1 (by decide), hW 2 (by decide), hW 3 (by decide),
    hW 4 (by decide), hW 5 (by decide), hW 6 (by decide), hW 7 (by decide), hW 8 (by decide),
    hW 9 (by decide), hW 10 (by decide), hW 11 (by decide), hW 12 (by decide), hW 13 (by decide),
    hW 14 (by decide), hW 15 (by decide)]
  simp only [Nat.zero_add] at hr
  rw [hr]
  simp only [Words8.toNats, Words8.toList, Words8.add, List.map_cons, List.map_nil,
    List.zipWith_cons_cons, List.zipWith_nil_left, UInt32.toNat_add]

/-! ## 3. The message -/

theorem getD_words (hm : m.length % 4 = 0) (t : Nat) :
    (OnNat.words m).getD t 0 = (word m t).toNat := by
  induction m using OnNat.words.induct generalizing t with
  | case1 a b c d m ih =>
    have hm' : m.length % 4 = 0 := by
      simp only [List.length_cons] at hm
      omega
    rw [OnNat.words, evalFirst_eq]
    cases t with
    | zero =>
      have ha := a.toNat_lt
      have hb := b.toNat_lt
      have hc := c.toNat_lt
      have hd := d.toNat_lt
      simp only [word, List.getD_cons_zero, List.getD_cons_succ, Nat.mul_zero, Nat.zero_add,
        UInt32.toNat_ofNat']
      omega
    | succ t =>
      rw [List.getD_cons_succ, ih hm']
      simp only [word, Nat.mul_succ, List.getD_cons_succ]
  | case2 m hne =>
    have hnil : m = [] := by
      match m, hne, hm with
      | [], _, _ => rfl
      | a :: b :: c :: d :: l, hne, _ => exact absurd rfl (hne a b c d l)
    subst hnil
    simp [OnNat.words, word]

theorem word_block (m : List UInt8) (i : Nat) {t : Nat} (ht : t < 16) :
    word (block m i) t = word m (16 * i + t) := by
  have hget : ∀ j < 64, (block m i).getD j 0 = m.getD (64 * i + j) 0 := by
    intro j hj
    rw [block, List.getD_eq_getElem?_getD, List.getD_eq_getElem?_getD, List.getElem?_take,
      if_pos hj, List.getElem?_drop]
  have hmul : 4 * (16 * i + t) = 64 * i + 4 * t := by omega
  simp only [word, hget _ (by omega : 4 * t < 64), hget _ (by omega : 4 * t + 1 < 64),
    hget _ (by omega : 4 * t + 2 < 64), hget _ (by omega : 4 * t + 3 < 64), hmul, Nat.add_assoc]

theorem length_pad (m : List UInt8) : (pad m).length % 64 = 0 := by
  simp only [pad, List.length_append, List.length_cons, List.length_replicate, lengthBlock_length,
    zeroBits]
  omega

/-- **The digest of the standard**, by natural numbers. -/
theorem sha256_eq_digest (m : List UInt8) : sha256 m = OnNat.digest m := by
  have hstep : ∀ (H : Words8) (i : Nat),
      OnNat.compress (fun t => ((OnNat.words (pad m)).drop (16 * i)).getD t 0) H.toNats =
        (compress H (block (pad m) i)).toNats := by
    intro H i
    refine compress_eq H _ fun t ht => ?_
    rw [List.getD_eq_getElem?_getD, List.getElem?_drop, ← List.getD_eq_getElem?_getD,
      getD_words (by have := length_pad m; omega), word_block (pad m) i ht]
  have hfold : ∀ (l : List Nat) (H : Words8),
      l.foldl (fun H i => OnNat.compress
          (fun t => ((OnNat.words (pad m)).drop (16 * i)).getD t 0) H) H.toNats =
        (l.foldl (fun s i => compress s (block (pad m) i)) H).toNats := by
    intro l
    induction l with
    | nil => exact fun _ => rfl
    | cons i l ih => exact fun H => by rw [List.foldl_cons, List.foldl_cons, hstep, ih]
  rw [OnNat.digest, ← Words8.toNats, hfold, sha256, absorb, Words8.toNats, List.flatMap_map]
  rfl

end Fips180
