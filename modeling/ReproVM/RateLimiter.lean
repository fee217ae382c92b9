/-
# The token bucket of `rate_limiter.c`

Tokens are unsigned and `time_t` is signed, both of 64 bits, and all of the arithmetic wraps.  A
refill that wraps only loses tokens, so the bucket never holds more than its capacity
(`Bucket.run`), and what has been granted is paid for by the time that `last_refill` has moved
(`Budget`): as long as the clock does not fall so far behind `last_refill` that `elapsed` wraps
to a positive number, the budget bounds every run (`granted_le`).  The other side is that wrapping
does lose tokens, and `refill_exact_iff` says when.
-/
import ReproVM.Lib.Trans
import Mathlib.Algebra.Order.Ring.Int
import Mathlib.Tactic.Ring

namespace ReproVM

open Lib (Run)

/-! ## 1. The code -/

structure RateLimiter where
  capacity : UInt64
  tokens : UInt64
  refillRate : UInt64
  lastRefill : Int64
  enabled : Bool
  deriving DecidableEq

def rateLimiterCreate (capacity refillRate : UInt64) (now : Int64) : RateLimiter :=
  { capacity, tokens := capacity, refillRate, lastRefill := now, enabled := true }

def rateLimiterRefill (now : Int64) (limiter : RateLimiter) : RateLimiter :=
  let elapsed := now - limiter.lastRefill
  if 0 < elapsed then
    let newTokens := elapsed.toUInt64 * limiter.refillRate
    let tokens := limiter.tokens + newTokens
    { limiter with
      tokens := if limiter.capacity < tokens then limiter.capacity else tokens
      lastRefill := now }
  else limiter

/-- The limiter after the call, and what the call returns; `now` is what `time(NULL)` reads. -/
def rateLimiterAcquire (now : Int64) (limiter : RateLimiter) (tokens : UInt64) :
    RateLimiter × Int :=
  if !limiter.enabled then (limiter, 0)
  else
    let limiter := rateLimiterRefill now limiter
    if tokens ≤ limiter.tokens then ({ limiter with tokens := limiter.tokens - tokens }, 0)
    else (limiter, -1)

/-! ## 2. Runs -/

variable {capacity refillRate : UInt64} {created now : Int64} {limiter limiter' : RateLimiter}

/-- A call of `rate_limiter_acquire`: the clock, the request and the result. -/
structure Acquire where
  now : Int64
  tokens : UInt64
  result : Int

def Acquire.Step (limiter : RateLimiter) (call : Acquire) (limiter' : RateLimiter) : Prop :=
  rateLimiterAcquire call.now limiter call.tokens = (limiter', call.result)

variable {call : Acquire} {calls : List Acquire}

instance : Decidable (Acquire.Step limiter call limiter') :=
  inferInstanceAs (Decidable (rateLimiterAcquire call.now limiter call.tokens = (limiter', call.result)))

/-- The tokens a call was granted. -/
def Acquire.granted (call : Acquire) : Nat := if call.result = 0 then call.tokens.toNat else 0

def granted (calls : List Acquire) : Nat := (calls.map Acquire.granted).sum

/-- The largest of the creation time and the clock readings. -/
def latest (created : Int64) (calls : List Acquire) : Int :=
  calls.foldl (fun m call => max m call.now.toInt) created.toInt

@[simp] theorem granted_snoc : granted (calls ++ [call]) = granted calls + call.granted := by
  simp [granted]

@[simp] theorem latest_snoc :
    latest created (calls ++ [call]) = max (latest created calls) call.now.toInt := by
  simp [latest]

/-! ## 3. The refill -/

theorem elapsed_toInt (now last : Int64) :
    (now - last).toInt = (now.toInt - last.toInt).bmod (2 ^ 64) := Int64.toInt_sub now last

/-- The subtraction does not wrap. -/
theorem elapsed_exact {last : Int64} (h : -2 ^ 63 ≤ now.toInt - last.toInt)
    (h' : now.toInt - last.toInt < 2 ^ 63) : (now - last).toInt = now.toInt - last.toInt := by
  rw [elapsed_toInt, Int.bmod_eq_of_le (by omega) (by omega)]

theorem toNat_toUInt64 {x : Int64} (hx : 0 ≤ x.toInt) : (x.toUInt64.toNat : Int) = x.toInt := by
  have h0 : (0 : Int64) ≤ x := Int64.le_iff_toInt_le.mpr (by simpa using hx)
  rw [Int64.toNat_toUInt64_of_le h0]
  exact Int.toNat_of_nonneg hx

theorem elapsed_pos {last : Int64} : 0 < now - last ↔ 0 < (now - last).toInt := by
  rw [Int64.lt_iff_toInt_lt]
  rfl

theorem refill_of_not_pos (h : ¬ 0 < (now - limiter.lastRefill).toInt) :
    rateLimiterRefill now limiter = limiter := by
  rw [rateLimiterRefill, if_neg (mt elapsed_pos.mp h)]

/-- What a refill leaves in the bucket, for the elapsed time as the code has it. -/
theorem refill_of_pos (h : 0 < (now - limiter.lastRefill).toInt) :
    ∃ tokens, rateLimiterRefill now limiter = { limiter with tokens, lastRefill := now } ∧
      tokens.toNat = min limiter.capacity.toNat ((limiter.tokens.toNat +
        (now - limiter.lastRefill).toInt.toNat * limiter.refillRate.toNat) % 2 ^ 64) := by
  refine ⟨_, by rw [rateLimiterRefill, if_pos (elapsed_pos.mpr h)], ?_⟩
  have hsum : (limiter.tokens + (now - limiter.lastRefill).toUInt64 * limiter.refillRate).toNat
      = (limiter.tokens.toNat + (now - limiter.lastRefill).toInt.toNat * limiter.refillRate.toNat)
        % 2 ^ 64 := by
    have he : (now - limiter.lastRefill).toUInt64.toNat = (now - limiter.lastRefill).toInt.toNat := by
      have := toNat_toUInt64 h.le
      omega
    rw [UInt64.toNat_add, UInt64.toNat_mul, he, Nat.add_mod_mod]
  split
  case isTrue hlt =>
    rw [UInt64.lt_iff_toNat_lt, hsum] at hlt
    exact (Nat.min_eq_left hlt.le).symm
  case isFalse hlt =>
    rw [UInt64.lt_iff_toNat_lt, hsum] at hlt
    rw [hsum, Nat.min_eq_right (Nat.le_of_not_lt hlt)]

/-! ## 4. What every call keeps -/

/-- The configuration stays, and the bucket is not over its capacity. -/
structure Bucket (capacity refillRate : UInt64) (limiter : RateLimiter) : Prop where
  capacity_eq : limiter.capacity = capacity
  refillRate_eq : limiter.refillRate = refillRate
  enabled : limiter.enabled = true
  tokens_le : limiter.tokens.toNat ≤ capacity.toNat

theorem Bucket.create : Bucket capacity refillRate (rateLimiterCreate capacity refillRate created) :=
  ⟨rfl, rfl, rfl, Nat.le_refl _⟩

theorem Bucket.refill (hk : Bucket capacity refillRate limiter) (now : Int64) :
    Bucket capacity refillRate (rateLimiterRefill now limiter) := by
  by_cases h : 0 < (now - limiter.lastRefill).toInt
  · obtain ⟨tokens, hr, ht⟩ := refill_of_pos h
    rw [hr]
    exact ⟨hk.capacity_eq, hk.refillRate_eq, hk.enabled, by
      rw [ht, hk.capacity_eq]
      exact Nat.min_le_left ..⟩
  · rwa [refill_of_not_pos h]

/-- A call is a refill, and then the tokens it grants are taken out. -/
theorem Acquire.Step.spend (hk : Bucket capacity refillRate limiter)
    (hs : Acquire.Step limiter call limiter') :
    ∃ tokens, limiter' = { rateLimiterRefill call.now limiter with tokens } ∧
      tokens.toNat + call.granted = (rateLimiterRefill call.now limiter).tokens.toNat := by
  rw [Acquire.Step, rateLimiterAcquire, hk.enabled] at hs
  simp only [Bool.not_true, Bool.false_eq_true, if_false] at hs
  split at hs
  case isTrue hle =>
    obtain ⟨rfl, hres⟩ := Prod.mk.inj hs
    refine ⟨_, rfl, ?_⟩
    rw [Acquire.granted, if_pos hres.symm, UInt64.toNat_sub_of_le _ _ hle]
    exact Nat.sub_add_cancel (UInt64.le_iff_toNat_le.mp hle)
  case isFalse hle =>
    obtain ⟨rfl, hres⟩ := Prod.mk.inj hs
    refine ⟨(rateLimiterRefill call.now limiter).tokens, rfl, ?_⟩
    rw [Acquire.granted, if_neg (by omega), Nat.add_zero]

theorem Bucket.step (hk : Bucket capacity refillRate limiter)
    (hs : Acquire.Step limiter call limiter') : Bucket capacity refillRate limiter' := by
  obtain ⟨tokens, rfl, hspend⟩ := hs.spend hk
  have hr := hk.refill call.now
  exact ⟨hr.capacity_eq, hr.refillRate_eq, hr.enabled, by have := hr.tokens_le; dsimp only; omega⟩

theorem Bucket.run (hr : Run Acquire.Step (rateLimiterCreate capacity refillRate created) calls limiter) :
    Bucket capacity refillRate limiter :=
  hr.preserve (fun _ _ _ hk hs => hk.step hs) Bucket.create

/-! ## 5. The budget -/

/-- The clock is not so far behind `last_refill` that `elapsed` wraps to a positive number. -/
def ClockOk (limiter : RateLimiter) (now : Int64) : Prop :=
  -2 ^ 63 ≤ now.toInt - limiter.lastRefill.toInt

instance : Decidable (ClockOk limiter now) :=
  inferInstanceAs (Decidable (-2 ^ 63 ≤ now.toInt - limiter.lastRefill.toInt))

/-- What was granted and what is in the bucket, against the time `last_refill` has moved. -/
structure Budget (capacity refillRate : UInt64) (created : Int64) (calls : List Acquire)
    (limiter : RateLimiter) : Prop extends Bucket capacity refillRate limiter where
  created_le : created.toInt ≤ limiter.lastRefill.toInt
  le_latest : limiter.lastRefill.toInt ≤ latest created calls
  paid : (granted calls : Int) + limiter.tokens.toNat ≤
    capacity.toNat + refillRate.toNat * (limiter.lastRefill.toInt - created.toInt)

theorem Budget.create :
    Budget capacity refillRate created [] (rateLimiterCreate capacity refillRate created) where
  toBucket := Bucket.create
  created_le := Int.le_refl _
  le_latest := Int.le_refl _
  paid := by simp [rateLimiterCreate, granted]

/-- A refill moves `last_refill` forward, not past the clock, and adds no more than that is worth. -/
theorem refill_paid (hclock : ClockOk limiter now) :
    limiter.lastRefill.toInt ≤ (rateLimiterRefill now limiter).lastRefill.toInt ∧
      (rateLimiterRefill now limiter).lastRefill.toInt ≤ max limiter.lastRefill.toInt now.toInt ∧
      ((rateLimiterRefill now limiter).tokens.toNat : Int) ≤ limiter.tokens.toNat +
        limiter.refillRate.toNat *
          ((rateLimiterRefill now limiter).lastRefill.toInt - limiter.lastRefill.toInt) := by
  by_cases h : 0 < (now - limiter.lastRefill).toInt
  · obtain ⟨tokens, hr, ht⟩ := refill_of_pos h
    have hexact : (now - limiter.lastRefill).toInt = now.toInt - limiter.lastRefill.toInt := by
      refine elapsed_exact hclock ?_
      by_contra hfar
      rw [elapsed_toInt, Int.bmod_def] at h
      have := now.toInt_lt
      have := limiter.lastRefill.le_toInt
      split at h <;> omega
    rw [hexact] at h ht
    have hadd : (tokens.toNat : Int) ≤ limiter.tokens.toNat +
        (now.toInt - limiter.lastRefill.toInt) * limiter.refillRate.toNat := by
      have hle : tokens.toNat ≤ limiter.tokens.toNat +
          (now.toInt - limiter.lastRefill.toInt).toNat * limiter.refillRate.toNat :=
        ht.le.trans ((Nat.min_le_right ..).trans (Nat.mod_le ..))
      have hcast := Int.ofNat_le.mpr hle
      rwa [Nat.cast_add, Nat.cast_mul, Int.toNat_of_nonneg h.le] at hcast
    rw [hr]
    refine ⟨by dsimp only; omega, le_max_right .., ?_⟩
    rw [mul_comm]
    exact hadd
  · rw [refill_of_not_pos h]
    exact ⟨Int.le_refl _, le_max_left .., by simp⟩

theorem Budget.step (hb : Budget capacity refillRate created calls limiter)
    (hclock : ClockOk limiter call.now) (hs : Acquire.Step limiter call limiter') :
    Budget capacity refillRate created (calls ++ [call]) limiter' := by
  obtain ⟨hfwd, hnot, hpaid⟩ := refill_paid hclock
  have hkept := hb.toBucket.step hs
  obtain ⟨tokens, rfl, hspend⟩ := hs.spend hb.toBucket
  refine ⟨hkept, hb.created_le.trans hfwd, ?_, ?_⟩
  · rw [latest_snoc]
    exact hnot.trans (max_le_max hb.le_latest (Int.le_refl _))
  · have hbefore := hb.paid
    rw [hb.refillRate_eq] at hpaid
    rw [granted_snoc]
    dsimp only
    have hmoved : (refillRate.toNat : Int) *
        ((rateLimiterRefill call.now limiter).lastRefill.toInt - created.toInt) =
        refillRate.toNat * (limiter.lastRefill.toInt - created.toInt) + refillRate.toNat *
          ((rateLimiterRefill call.now limiter).lastRefill.toInt - limiter.lastRefill.toInt) := by
      ring
    rw [hmoved]
    push_cast
    omega

/-- **The bucket's bound**: the bucket is never over its capacity, and in every run whose calls
read a clock that is not too far behind `last_refill`, no more is granted than the capacity and
the refill of the time up to the latest reading. -/
theorem granted_le (capacity refillRate : UInt64) (created : Int64) :
    (∀ calls limiter,
      Run Acquire.Step (rateLimiterCreate capacity refillRate created) calls limiter →
        limiter.tokens ≤ limiter.capacity) ∧
    ∀ calls limiter,
      Run (fun l call l' => ClockOk l call.now ∧ Acquire.Step l call l')
        (rateLimiterCreate capacity refillRate created) calls limiter →
        (granted calls : Int) ≤
          capacity.toNat + refillRate.toNat * (latest created calls - created.toInt) := by
  refine ⟨fun calls limiter hr => ?_, fun calls limiter hr => ?_⟩
  · have hk := Bucket.run hr
    rw [UInt64.le_iff_toNat_le, hk.capacity_eq]
    exact hk.tokens_le
  · have hb : Budget capacity refillRate created calls limiter :=
      hr.inv Budget.create fun _ _ _ _ _ hb hs => hb.step hs.1 hs.2
    have hpaid := hb.paid
    have htime : (refillRate.toNat : Int) * (limiter.lastRefill.toInt - created.toInt) ≤
        refillRate.toNat * (latest created calls - created.toInt) :=
      Int.mul_le_mul_of_nonneg_left (by have := hb.le_latest; omega) (Int.natCast_nonneg _)
    omega

/-- One token from a full bucket of two, and another a second later. -/
theorem granted_le_two :
    (granted [⟨0, 1, 0⟩, ⟨1, 1, 0⟩] : Int) ≤
      (2 : UInt64).toNat + (1 : UInt64).toNat * (latest 0 [⟨0, 1, 0⟩, ⟨1, 1, 0⟩] - (0 : Int64).toInt) :=
  (granted_le 2 1 0).2 [⟨0, 1, 0⟩, ⟨1, 1, 0⟩] ⟨2, 1, 1, 1, true⟩
    (.cons (t := ⟨2, 1, 1, 0, true⟩) ⟨by decide, by decide⟩
      (.single ⟨by decide, by decide⟩))

/-- A bucket of one token, a clock at its largest value, and then one before the epoch: `elapsed`
wraps to a positive number, and the token comes back without any time having gone by. -/
theorem granted_by_wrap :
    (∃ limiter, Run Acquire.Step (rateLimiterCreate 1 1 Int64.maxValue)
      [⟨Int64.maxValue, 1, 0⟩, ⟨-2, 1, 0⟩] limiter) ∧
    ¬ (granted [⟨Int64.maxValue, 1, 0⟩, ⟨-2, 1, 0⟩] : Int) ≤
      (1 : UInt64).toNat + (1 : UInt64).toNat *
        (latest Int64.maxValue [⟨Int64.maxValue, 1, 0⟩, ⟨-2, 1, 0⟩] - Int64.maxValue.toInt) :=
  ⟨⟨⟨1, 0, 1, -2, true⟩, .cons (t := ⟨1, 0, 1, Int64.maxValue, true⟩) (by decide) (.single (by decide))⟩,
    by decide⟩

/-! ## 6. What a refill loses -/

/-- The tokens that have accrued, in unbounded numbers. -/
def accrued (limiter : RateLimiter) (now : Int64) : Nat :=
  limiter.tokens.toNat + (now.toInt - limiter.lastRefill.toInt).toNat * limiter.refillRate.toNat

/-- No token is lost: what has accrued fits in 64 bits, or what is left of it still fills the
bucket; and where the elapsed time does not fit in a `time_t`, there was nothing to add. -/
def RefillFits (limiter : RateLimiter) (now : Int64) : Prop :=
  if now.toInt - limiter.lastRefill.toInt < 2 ^ 63 then
    accrued limiter now < 2 ^ 64 ∨ limiter.capacity.toNat ≤ accrued limiter now % 2 ^ 64
  else limiter.tokens = limiter.capacity ∨ limiter.refillRate = 0

instance : Decidable (RefillFits limiter now) :=
  inferInstanceAs (Decidable (if now.toInt - limiter.lastRefill.toInt < 2 ^ 63 then
    accrued limiter now < 2 ^ 64 ∨ limiter.capacity.toNat ≤ accrued limiter now % 2 ^ 64
  else limiter.tokens = limiter.capacity ∨ limiter.refillRate = 0))

theorem min_mod_eq_iff {c x m : Nat} (hc : c < m) :
    min c (x % m) = min c x ↔ x < m ∨ c ≤ x % m := by
  by_cases hx : x < m
  · simp [Nat.mod_eq_of_lt hx, hx]
  · omega

/-- The elapsed time does not fit in a `time_t`: it is taken for a negative one. -/
theorem elapsed_neg (h : 2 ^ 63 ≤ now.toInt - limiter.lastRefill.toInt) :
    ¬ 0 < (now - limiter.lastRefill).toInt := by
  rw [elapsed_toInt, Int.bmod_def]
  have := now.toInt_lt
  have := limiter.lastRefill.le_toInt
  split <;> omega

theorem refill_tokens_iff (hk : Bucket capacity refillRate limiter)
    (hlater : limiter.lastRefill < now) :
    (rateLimiterRefill now limiter).tokens.toNat
        = min limiter.capacity.toNat (accrued limiter now) ↔ RefillFits limiter now := by
  have hpos : 0 < now.toInt - limiter.lastRefill.toInt := by
    have := Int64.lt_iff_toInt_lt.mp hlater
    omega
  unfold RefillFits
  split
  case isTrue hnear =>
    have hexact := elapsed_exact (by omega) hnear
    obtain ⟨tokens, hr, ht⟩ := refill_of_pos (by omega : 0 < (now - limiter.lastRefill).toInt)
    rw [hr]
    dsimp only
    rw [ht, hexact]
    exact min_mod_eq_iff limiter.capacity.toNat_lt
  case isFalse hfar =>
    have hle := hk.tokens_le
    rw [refill_of_not_pos (elapsed_neg (Int.not_lt.mp hfar)), accrued, ← UInt64.toNat_inj,
      ← UInt64.toNat_inj, hk.capacity_eq, hk.refillRate_eq]
    have hsome : 0 < (now.toInt - limiter.lastRefill.toInt).toNat := by omega
    rcases Nat.eq_zero_or_pos refillRate.toNat with h0 | h0
    · simp [h0, Nat.min_eq_right hle]
    · have := Nat.mul_pos hsome h0
      simp only [UInt64.toNat_zero]
      omega

/-- A request that the bucket covers is granted. -/
theorem acquire_of_le (henabled : limiter.enabled = true) {n : UInt64}
    (hn : n.toNat ≤ (rateLimiterRefill now limiter).tokens.toNat) :
    (rateLimiterAcquire now limiter n).2 = 0 := by
  rw [rateLimiterAcquire, henabled, if_neg (by decide), if_pos (UInt64.le_iff_toNat_le.mpr hn)]

/-- **When a refill loses nothing**: in every state that calls reach and for every later clock,
the bucket is filled exactly, and what has accrued is granted, iff the refill fits. -/
theorem refill_exact_iff
    (hr : Run Acquire.Step (rateLimiterCreate capacity refillRate created) calls limiter)
    (hlater : limiter.lastRefill < now) :
    ((rateLimiterRefill now limiter).tokens.toNat
        = min limiter.capacity.toNat (accrued limiter now) ∧
      ∀ n ≤ limiter.capacity, n.toNat ≤ accrued limiter now →
        (rateLimiterAcquire now limiter n).2 = 0) ↔
      RefillFits limiter now := by
  have hk := Bucket.run hr
  rw [← refill_tokens_iff hk hlater]
  refine ⟨And.left, fun hexact => ⟨hexact, fun n hcap hn => acquire_of_le hk.enabled ?_⟩⟩
  rw [hexact]
  exact le_min (UInt64.le_iff_toNat_le.mp hcap) hn

/-- A fresh bucket of five, a second later. -/
theorem refill_exact_fresh :
    (rateLimiterRefill 1 (rateLimiterCreate 5 1 0)).tokens.toNat
        = min (rateLimiterCreate 5 1 0).capacity.toNat (accrued (rateLimiterCreate 5 1 0) 1) ∧
      ∀ n ≤ (rateLimiterCreate 5 1 0).capacity, n.toNat ≤ accrued (rateLimiterCreate 5 1 0) 1 →
        (rateLimiterAcquire 1 (rateLimiterCreate 5 1 0) n).2 = 0 :=
  (refill_exact_iff .refl (by decide)).mpr (by decide)

/-- Two seconds at `2 ^ 63` tokens a second come to nothing, and a single token is refused. -/
theorem refill_lost :
    (∃ limiter, Run Acquire.Step (rateLimiterCreate 10 0x8000000000000000 0) [⟨0, 10, 0⟩] limiter ∧
      limiter.lastRefill < 2 ∧
      (rateLimiterRefill 2 limiter).tokens.toNat = 0 ∧
      min limiter.capacity.toNat (accrued limiter 2) = 10 ∧
      (rateLimiterAcquire 2 limiter 1).2 = -1) :=
  ⟨⟨10, 0, 0x8000000000000000, 0, true⟩, .single (by decide), by decide⟩

end ReproVM
