/-
# Waiting for tokens and for resources

`rate_limiter_wait` and `resource_limits_wait_for_resources` ask again and again, with a pause
after each refusal, and give up when the pauses add up to the time-out.  The pauses are added up in
an `int`, so a time-out close to `INT_MAX` is never reached: the addition overflows first.

To wait for tokens is to acquire them once, at the first moment there are enough: the refills on the
way lose nothing (`refill_refill`), as long as no sum wraps.  To wait for resources is no use:
between two checks the limits only get new totals of what the process has used, and these do not
go down (`resourceLimitsWait_iff`).
-/
import ReproVM.Lib.Poll
import ReproVM.RateLimiter

namespace ReproVM

open Lib (Run Patience waitFor nth waitFor_cases waitFor_attempt)

/-! ## 1. Tokens -/

/-- Pauses of 100 ms, added up in an `int`. -/
def rateLimiterPatience (timeoutMs : Int32) : Patience where
  pause := 100
  limit := timeoutMs.toInt
  bound := 2 ^ 31
  pos := by decide
  room := by decide

/-- One turn of the loop's condition; `clock k` is what `time(NULL)` reads at attempt number `k`. -/
def acquireAttempt (clock : Nat → Int64) (tokens : UInt64) (k : Nat) (limiter : RateLimiter) :
    RateLimiter × Bool :=
  let call := rateLimiterAcquire (clock k) limiter tokens
  (call.1, call.2 = 0)

/-- The limiter after the call and what it returns, or nothing where `waited` overflows. -/
def rateLimiterWait (clock : Nat → Int64) (limiter : RateLimiter) (tokens : UInt64)
    (timeoutMs : Int32) : Option (RateLimiter × Int) :=
  if !limiter.enabled then some (limiter, 0)
  else
    let last := waitFor (acquireAttempt clock tokens) (fun _ limiter => limiter)
      (rateLimiterPatience timeoutMs) 0 0 limiter
    last.map fun last => (last.1, if last.2 then 0 else -1)

section Tokens

variable {capacity refillRate tokens : UInt64} {now later : Int64} {limiter : RateLimiter}
  {clock : Nat → Int64} {timeoutMs : Int32} {k : Nat}

/-- The clock is not behind the limiter, and nothing wraps. -/
structure NoWrap (limiter : RateLimiter) (now : Int64) : Prop where
  later : limiter.lastRefill.toInt ≤ now.toInt
  near : now.toInt - limiter.lastRefill.toInt < 2 ^ 63
  fits : accrued limiter now < 2 ^ 64

/-- There are enough tokens at that time. -/
def Covers (limiter : RateLimiter) (tokens : UInt64) (now : Int64) : Prop :=
  tokens.toNat ≤ min limiter.capacity.toNat (accrued limiter now)

/-- The bucket at a later time. -/
theorem refill_eq (hk : Bucket capacity refillRate limiter) (hn : NoWrap limiter now) :
    rateLimiterRefill now limiter = { limiter with
      tokens := UInt64.ofNat (min limiter.capacity.toNat (accrued limiter now))
      lastRefill := now } := by
  have hexact : (now - limiter.lastRefill).toInt = now.toInt - limiter.lastRefill.toInt :=
    elapsed_exact (by have := hn.later; omega) hn.near
  rcases Int.lt_or_eq_of_le hn.later with hlt | heq
  · obtain ⟨left, hr, ht⟩ := refill_of_pos (by omega : 0 < (now - limiter.lastRefill).toInt)
    rw [hexact] at ht
    change _ = min _ (accrued limiter now % 2 ^ 64) at ht
    rw [Nat.mod_eq_of_lt hn.fits] at ht
    rw [hr, ← ht, UInt64.ofNat_toNat]
  · have htokens : min limiter.capacity.toNat (accrued limiter now) = limiter.tokens.toNat := by
      rw [accrued, heq, Int.sub_self, Int.toNat_zero, Nat.zero_mul, Nat.add_zero, hk.capacity_eq]
      exact Nat.min_eq_right hk.tokens_le
    rw [refill_of_not_pos (by omega), htokens, UInt64.ofNat_toNat, ← Int64.toInt_inj.mp heq]

theorem refill_tokens (hk : Bucket capacity refillRate limiter) (hn : NoWrap limiter now) :
    (rateLimiterRefill now limiter).tokens.toNat
      = min limiter.capacity.toNat (accrued limiter now) := by
  rw [refill_eq hk hn]
  exact UInt64.toNat_ofNat_of_lt'
    (Nat.lt_of_le_of_lt (Nat.min_le_left ..) limiter.capacity.toNat_lt)

/-- What accrues in two steps. -/
theorem accrued_later (hn : NoWrap limiter now) (hle : now.toInt ≤ later.toInt) :
    accrued limiter later =
      accrued limiter now + (later.toInt - now.toInt).toNat * limiter.refillRate.toNat := by
  have hlater := hn.later
  rw [accrued, accrued, Nat.add_assoc, ← Nat.add_mul]
  congr 2
  omega

theorem accrued_refill (hk : Bucket capacity refillRate limiter) (hn : NoWrap limiter now) :
    accrued (rateLimiterRefill now limiter) later = min limiter.capacity.toNat (accrued limiter now) +
      (later.toInt - now.toInt).toNat * limiter.refillRate.toNat := by
  rw [accrued, refill_tokens hk hn, refill_eq hk hn]

/-- **A refill on the way loses nothing.** -/
theorem refill_refill (hk : Bucket capacity refillRate limiter) (hn : NoWrap limiter now)
    (hl : NoWrap limiter later) (hle : now.toInt ≤ later.toInt) :
    rateLimiterRefill later (rateLimiterRefill now limiter) = rateLimiterRefill later limiter := by
  have hsum := accrued_later hn hle
  have hrest : accrued (rateLimiterRefill now limiter) later = _ := accrued_refill hk hn
  have hn' : NoWrap (rateLimiterRefill now limiter) later := by
    refine ⟨?_, ?_, ?_⟩
    · rw [refill_eq hk hn]
      exact hle
    · have := hn.later
      have := hl.near
      rw [refill_eq hk hn]
      dsimp only
      omega
    · have := hl.fits
      omega
  have hmin : min limiter.capacity.toNat (accrued (rateLimiterRefill now limiter) later) =
      min limiter.capacity.toNat (accrued limiter later) := by omega
  have hcap : (rateLimiterRefill now limiter).capacity = limiter.capacity := by rw [refill_eq hk hn]
  rw [refill_eq (hk.refill now) hn', refill_eq hk hl, hcap, hmin, refill_eq hk hn]

/-- A call grants what there is enough of. -/
theorem acquire_result (hk : Bucket capacity refillRate limiter) (hn : NoWrap limiter now) :
    (rateLimiterAcquire now limiter tokens).2 = 0 ↔ Covers limiter tokens now := by
  rw [Covers, ← refill_tokens hk hn, ← UInt64.le_iff_toNat_le, rateLimiterAcquire, hk.enabled]
  simp only [Bool.not_true, Bool.false_eq_true, if_false]
  split <;> simp_all

/-- A call that grants nothing is a refill. -/
theorem acquire_refused (hk : Bucket capacity refillRate limiter) (hn : NoWrap limiter now)
    (h : ¬ Covers limiter tokens now) :
    rateLimiterAcquire now limiter tokens = (rateLimiterRefill now limiter, -1) := by
  have hlt : ¬ tokens ≤ (rateLimiterRefill now limiter).tokens := by
    rwa [UInt64.le_iff_toNat_le, refill_tokens hk hn]
  rw [rateLimiterAcquire, hk.enabled, if_neg (by decide)]
  exact if_neg hlt

theorem acquire_after_refill (hk : Bucket capacity refillRate limiter) (hn : NoWrap limiter now)
    (hl : NoWrap limiter later) (hle : now.toInt ≤ later.toInt) :
    rateLimiterAcquire later (rateLimiterRefill now limiter) tokens =
      rateLimiterAcquire later limiter tokens := by
  rw [rateLimiterAcquire, rateLimiterAcquire, (hk.refill now).enabled, hk.enabled,
    refill_refill hk hn hl hle]
  rfl

/-- What an attempt finds, whatever refills there were on the way, is what a single call finds. -/
theorem nth_acquire (hk : Bucket capacity refillRate limiter)
    (hclock : ∀ i j, i ≤ j → (clock i).toInt ≤ (clock j).toInt) (hn : ∀ i ≤ k, NoWrap limiter (clock i))
    (hfail : ∀ i < k, ¬ Covers limiter tokens (clock i)) :
    nth (acquireAttempt clock tokens) (fun _ limiter => limiter) limiter k =
      acquireAttempt clock tokens k limiter := by
  induction k with
  | zero => rfl
  | succ k ih =>
    have hbefore := ih (fun i hi => hn i (Nat.le_succ_of_le hi))
      fun i hi => hfail i (Nat.lt_succ_of_lt hi)
    have hrefill : (acquireAttempt clock tokens k limiter).1 = rateLimiterRefill (clock k) limiter := by
      rw [acquireAttempt, acquire_refused hk (hn k (Nat.le_succ k)) (hfail k (Nat.lt_succ_self k))]
    change acquireAttempt clock tokens (k + 1)
      (nth (acquireAttempt clock tokens) (fun _ limiter => limiter) limiter k).1 = _
    rw [hbefore, hrefill, acquireAttempt, acquireAttempt, acquire_after_refill hk (hn k (Nat.le_succ k))
      (hn (k + 1) (Nat.le_refl _)) (hclock k (k + 1) (Nat.le_succ k))]

/-- The attempts of the loop fail for want of tokens. -/
theorem nth_covers (hk : Bucket capacity refillRate limiter)
    (hclock : ∀ i j, i ≤ j → (clock i).toInt ≤ (clock j).toInt) (hn : ∀ i < k, NoWrap limiter (clock i))
    (hfail : ∀ i < k,
      (nth (acquireAttempt clock tokens) (fun _ limiter => limiter) limiter i).2 = false) :
    ∀ i < k, ¬ Covers limiter tokens (clock i) := by
  induction k with
  | zero => exact fun i hi => absurd hi (Nat.not_lt_zero i)
  | succ k ih =>
    have hcovers := ih (fun i hi => hn i (Nat.lt_succ_of_lt hi))
      fun i hi => hfail i (Nat.lt_succ_of_lt hi)
    intro i hi
    rcases Nat.lt_succ_iff_lt_or_eq.mp hi with hi | rfl
    · exact hcovers i hi
    · have hlast := hfail i (Nat.lt_succ_self i)
      rw [nth_acquire hk hclock (fun j hj => hn j (Nat.lt_succ_of_le hj)) hcovers,
        acquireAttempt] at hlast
      rw [← acquire_result hk (hn i (Nat.lt_succ_self i))]
      simpa using hlast

theorem acquireAttempt_result (clock : Nat → Int64) (tokens : UInt64) (k : Nat)
    (limiter : RateLimiter) (hk : Bucket capacity refillRate limiter) :
    ((acquireAttempt clock tokens k limiter).1,
      if (acquireAttempt clock tokens k limiter).2 then (0 : Int) else -1) =
        rateLimiterAcquire (clock k) limiter tokens := by
  rw [acquireAttempt, rateLimiterAcquire, hk.enabled, if_neg (by decide)]
  dsimp only
  split <;> rfl

end Tokens

/-! ## 2. Resources -/

structure ResourceLimits where
  maxCpuPercent : Int32
  currentCpuPercent : Int32
  maxMemoryBytes : UInt64
  currentMemoryBytes : UInt64
  maxDiskBytes : UInt64
  currentDiskBytes : UInt64
  maxConcurrentTasks : Int32
  currentConcurrentTasks : Int32
  maxTasksPerSecond : Int32
  maxCacheOpsPerSecond : Int32
  taskTimeoutSeconds : Int32
  cacheTimeoutSeconds : Int32
  enabled : Bool

def resourceLimitsCreate : ResourceLimits where
  maxCpuPercent := 80
  currentCpuPercent := 0
  maxMemoryBytes := 4 * 1024 * 1024 * 1024
  currentMemoryBytes := 0
  maxDiskBytes := 100 * 1024 * 1024 * 1024
  currentDiskBytes := 0
  maxConcurrentTasks := 16
  currentConcurrentTasks := 0
  maxTasksPerSecond := 100
  maxCacheOpsPerSecond := 1000
  taskTimeoutSeconds := 3600
  cacheTimeoutSeconds := 60
  enabled := true

def resourceLimitsCheck (limits : ResourceLimits) : Int :=
  if !limits.enabled then 0
  else if limits.maxCpuPercent < limits.currentCpuPercent then -1
  else if limits.maxMemoryBytes < limits.currentMemoryBytes then -1
  else if limits.maxDiskBytes < limits.currentDiskBytes then -1
  else if limits.maxConcurrentTasks ≤ limits.currentConcurrentTasks then -1
  else 0

/-- What `get_cpu_usage`, as an `int`, and `get_memory_usage` give. -/
structure Usage where
  cpu : Int32
  memory : UInt64

def resourceLimitsUpdate (usage : Usage) (limits : ResourceLimits) : ResourceLimits :=
  if !limits.enabled then limits
  else { limits with currentCpuPercent := usage.cpu, currentMemoryBytes := usage.memory }

/-- Pauses of 500 ms, added up in an `int`. -/
def resourcePatience (timeoutMs : Int32) : Patience where
  pause := 500
  limit := timeoutMs.toInt
  bound := 2 ^ 31
  pos := by decide
  room := by decide

/-- One turn of the loop's condition. -/
def checkAttempt (_ : Nat) (limits : ResourceLimits) : ResourceLimits × Bool :=
  (limits, resourceLimitsCheck limits = 0)

/-- The limits after the call and what it returns, or nothing where `waited` overflows; `usage k` is
what the update after the check number `k` reads. -/
def resourceLimitsWaitForResources (usage : Nat → Usage) (limits : ResourceLimits)
    (timeoutMs : Int32) : Option (ResourceLimits × Int) :=
  if !limits.enabled then some (limits, 0)
  else
    let last := waitFor checkAttempt (fun k limits => resourceLimitsUpdate (usage k) limits)
      (resourcePatience timeoutMs) 0 0 limits
    last.map fun last => (last.1, if last.2 then 0 else -1)

section Resources

variable {usage : Nat → Usage} {limits : ResourceLimits} {timeoutMs : Int32} {k : Nat}

/-- What the limits hold at the check number `k`. -/
def seen (usage : Nat → Usage) (limits : ResourceLimits) : Nat → ResourceLimits
  | 0 => limits
  | k + 1 => resourceLimitsUpdate (usage k) limits

/-- The usage that is read only grows, from what the limits hold. -/
structure UsageGrows (usage : Nat → Usage) (limits : ResourceLimits) : Prop where
  cpu : ∀ k, limits.currentCpuPercent ≤ (usage k).cpu
  memory : ∀ k, limits.currentMemoryBytes ≤ (usage k).memory

/-- The check, when it is made. -/
structure Within (limits : ResourceLimits) : Prop where
  cpu : limits.currentCpuPercent ≤ limits.maxCpuPercent
  memory : limits.currentMemoryBytes ≤ limits.maxMemoryBytes
  disk : limits.currentDiskBytes ≤ limits.maxDiskBytes
  tasks : limits.currentConcurrentTasks < limits.maxConcurrentTasks

theorem guard_eq_zero {c : Prop} [Decidable c] {r : Int} :
    (if c then -1 else r) = 0 ↔ ¬ c ∧ r = 0 := by
  split
  case isTrue h => exact ⟨fun he => absurd he (by decide), fun hr => absurd h hr.1⟩
  case isFalse h => exact ⟨fun hr => ⟨h, hr⟩, And.right⟩

theorem resourceLimitsCheck_iff :
    resourceLimitsCheck limits = 0 ↔ (limits.enabled = true → Within limits) := by
  rw [resourceLimitsCheck]
  cases limits.enabled with
  | false => simp
  | true =>
    rw [if_neg (by decide), guard_eq_zero, guard_eq_zero, guard_eq_zero, guard_eq_zero,
      Int32.not_lt, UInt64.not_lt, UInt64.not_lt, Int32.not_le]
    constructor
    · rintro ⟨hcpu, hmemory, hdisk, htasks, -⟩ -
      exact ⟨hcpu, hmemory, hdisk, htasks⟩
    · intro h
      obtain ⟨hcpu, hmemory, hdisk, htasks⟩ := h rfl
      exact ⟨hcpu, hmemory, hdisk, htasks, rfl⟩

theorem resourceLimitsUpdate_of_enabled (h : limits.enabled = true) (u : Usage) :
    resourceLimitsUpdate u limits =
      { limits with currentCpuPercent := u.cpu, currentMemoryBytes := u.memory } := by
  rw [resourceLimitsUpdate, h]
  rfl

theorem resourceLimitsUpdate_of_disabled (h : limits.enabled = false) (u : Usage) :
    resourceLimitsUpdate u limits = limits := by
  rw [resourceLimitsUpdate, h]
  rfl

/-- An update is all there is to see of the ones before. -/
theorem resourceLimitsUpdate_twice (u v : Usage) :
    resourceLimitsUpdate v (resourceLimitsUpdate u limits) = resourceLimitsUpdate v limits := by
  cases h : limits.enabled with
  | false => rw [resourceLimitsUpdate_of_disabled h u]
  | true =>
    have hu := resourceLimitsUpdate_of_enabled h u
    have henabled : (resourceLimitsUpdate u limits).enabled = true := by rw [hu]; exact h
    rw [resourceLimitsUpdate_of_enabled henabled v, resourceLimitsUpdate_of_enabled h v, hu]

theorem nth_seen (usage : Nat → Usage) (limits : ResourceLimits) (k : Nat) :
    nth checkAttempt (fun k limits => resourceLimitsUpdate (usage k) limits) limits k =
      checkAttempt k (seen usage limits k) := by
  induction k with
  | zero => rfl
  | succ k ih =>
    have hseen : resourceLimitsUpdate (usage k) (seen usage limits k) = seen usage limits (k + 1) := by
      cases k with
      | zero => rfl
      | succ k => exact resourceLimitsUpdate_twice _ _
    change checkAttempt (k + 1) (resourceLimitsUpdate (usage k) (nth checkAttempt _ limits k).1) = _
    rw [ih]
    exact congrArg (checkAttempt (k + 1)) hseen

/-- A limit that is exceeded stays exceeded. -/
theorem resourceLimitsCheck_grows (h : UsageGrows usage limits) (k : Nat)
    (hk : resourceLimitsCheck (seen usage limits k) = 0) : resourceLimitsCheck limits = 0 := by
  cases k with
  | zero => exact hk
  | succ k =>
    rw [resourceLimitsCheck_iff] at hk ⊢
    intro henabled
    rw [seen, resourceLimitsUpdate_of_enabled henabled] at hk
    obtain ⟨hcpu, hmemory, hdisk, htasks⟩ := hk henabled
    exact ⟨Int32.le_trans (h.cpu k) hcpu, UInt64.le_trans (h.memory k) hmemory, hdisk, htasks⟩

/-- With a limit exceeded, the loop runs its time. -/
theorem waitFor_exceeded (h : UsageGrows usage limits) (hcheck : resourceLimitsCheck limits ≠ 0) :
    waitFor checkAttempt (fun k limits => resourceLimitsUpdate (usage k) limits)
        (resourcePatience timeoutMs) 0 0 limits =
      if ((resourcePatience timeoutMs).rounds : Int) * 500 < 2 ^ 31 then
        some (seen usage limits (resourcePatience timeoutMs).rounds, false)
      else none := by
  have hfails : ∀ k, checkAttempt k (seen usage limits k) = (seen usage limits k, false) := by
    intro k
    rw [checkAttempt, decide_eq_false fun hk => hcheck (resourceLimitsCheck_grows h k hk)]
  rcases waitFor_cases checkAttempt (fun k limits => resourceLimitsUpdate (usage k) limits)
    (resourcePatience timeoutMs) limits with ⟨k, -, htime, -, hlast, heq⟩ | ⟨hover, -, heq⟩
  · rw [nth_seen, hfails] at hlast heq
    obtain rfl := hlast.resolve_left Bool.false_ne_true
    rw [heq]
    exact (if_pos htime).symm
  · rw [heq]
    exact (if_neg (Int.not_lt.mpr hover)).symm

/-- **Waiting for resources is no use.**  The totals of `getrusage` only grow, and the disk and the
number of tasks are not read again: the call returns 0 iff its first check passes, and otherwise
gives up after all of its time, or never, where the pauses do not add up to the time-out in an
`int`. -/
theorem resourceLimitsWait_iff (h : UsageGrows usage limits) (timeoutMs : Int32) :
    ((∃ limits', resourceLimitsWaitForResources usage limits timeoutMs = some (limits', 0)) ↔
      resourceLimitsCheck limits = 0) ∧
    (resourceLimitsCheck limits ≠ 0 →
      resourceLimitsWaitForResources usage limits timeoutMs =
        if ((resourcePatience timeoutMs).rounds : Int) * 500 < 2 ^ 31 then
          some (seen usage limits (resourcePatience timeoutMs).rounds, -1)
        else none) := by
  have hexceeded : resourceLimitsCheck limits ≠ 0 →
      resourceLimitsWaitForResources usage limits timeoutMs =
        if ((resourcePatience timeoutMs).rounds : Int) * 500 < 2 ^ 31 then
          some (seen usage limits (resourcePatience timeoutMs).rounds, -1)
        else none := by
    intro hcheck
    have henabled : limits.enabled = true := by
      by_contra hne
      exact hcheck (resourceLimitsCheck_iff.mpr fun h => absurd h hne)
    rw [resourceLimitsWaitForResources, henabled, if_neg (by decide), waitFor_exceeded h hcheck]
    split <;> rfl
  refine ⟨⟨fun ⟨limits', hwait⟩ => ?_, fun hcheck => ?_⟩, hexceeded⟩
  · by_contra hcheck
    rw [hexceeded hcheck] at hwait
    split at hwait
    · have hret : (-1 : Int) = 0 := congrArg Prod.snd (Option.some.inj hwait)
      exact absurd hret (by decide)
    · cases hwait
  · rw [resourceLimitsWaitForResources]
    cases limits.enabled with
    | false => exact ⟨limits, rfl⟩
    | true =>
      have hfirst : nth checkAttempt (fun k limits => resourceLimitsUpdate (usage k) limits) limits 0 =
          (limits, true) := by
        rw [nth_seen, checkAttempt, seen, hcheck]
        rfl
      have hwait : waitFor checkAttempt (fun k limits => resourceLimitsUpdate (usage k) limits)
          (resourcePatience timeoutMs) 0 0 limits = some (limits, true) := by
        rw [← hfirst]
        exact waitFor_attempt (fun i hi => absurd hi (Nat.not_lt_zero i)) (Nat.zero_le _)
          (by simpa using (resourcePatience timeoutMs).room) (.inl (congrArg Prod.snd hfirst))
      exact ⟨limits, by rw [if_neg (by decide), hwait]; rfl⟩

/-- A process that has used a second of processor time, with the limits of a new one. -/
theorem resourceLimitsWait_busy :
    resourceLimitsWaitForResources (fun _ => ⟨100, 0⟩)
        { resourceLimitsCreate with currentCpuPercent := 100 } 60000 =
      if ((resourcePatience 60000).rounds : Int) * 500 < 2 ^ 31 then
        some (seen (fun _ => ⟨100, 0⟩) { resourceLimitsCreate with currentCpuPercent := 100 }
          (resourcePatience 60000).rounds, -1)
      else none :=
  (resourceLimitsWait_iff ⟨fun _ => by decide, fun _ => by decide⟩ 60000).2 (by decide)

end Resources

end ReproVM
