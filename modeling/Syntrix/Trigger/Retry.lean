import Syntrix.Lib.Bytes

/-! # Retries of a delivery

A delivery that failed is tried again after a delay that doubles with every attempt, up to the largest delay
of the rule. The factor and the product are 64-bit numbers, and the limit is applied after both.
-/
namespace Syntrix.Delivery

open Lib

structure RetryPolicy where
  maxAttempts : Int64
  initialBackoff : Int64
  maxBackoff : Int64
deriving DecidableEq

structure Trigger where
  id : Bytes
  database : Bytes
  collection : Bytes
  events : List Bytes
  url : Bytes
  retryPolicy : RetryPolicy
  timeout : Int64

inductive TriggerError where
  | idRequired
  | invalidID (id : Bytes)
  | negativeTimeout
  | databaseRequired
  | invalidDatabase (database : Bytes)
  | databaseTooLong (database : Bytes)
  | collectionRequired
  | collectionTooLong (collection : Bytes)
  | eventRequired
  | invalidEvent (event : Bytes)
  | urlRequired
  | invalidURL
  | urlScheme (url : Bytes)
  | urlHost (url : Bytes)
deriving DecidableEq

/-- The expression `^[a-zA-Z0-9_-]+$`. -/
def validName (name : Bytes) : Bool :=
  name ≠ [] && name.all fun b =>
    (0x61 ≤ b && b ≤ 0x7A) || (0x41 ≤ b && b ≤ 0x5A) || (0x30 ≤ b && b ≤ 0x39) || b = 0x5F || b = 0x2D

/-- The check of a rule; `parse` gives the scheme and the host of a URL. -/
def validateTrigger (parse : Bytes → Option (Bytes × Bytes)) (t : Trigger) : Except TriggerError Unit :=
  if t.id = [] then .error .idRequired
  else if validName t.id = false then .error (.invalidID t.id)
  else if t.timeout < 0 then .error .negativeTimeout
  else if t.database = [] then .error .databaseRequired
  else if validName t.database = false then .error (.invalidDatabase t.database)
  else if t.database.length > 128 then .error (.databaseTooLong t.database)
  else if t.collection = [] then .error .collectionRequired
  else if t.collection.length > 128 then .error (.collectionTooLong t.collection)
  else if t.events = [] then .error .eventRequired
  else match t.events.find? fun e => e ∉ [text "create", text "update", text "delete"] with
    | some event => .error (.invalidEvent event)
    | none =>
      if t.url = [] then .error .urlRequired
      else match parse t.url with
        | none => .error .invalidURL
        | some (scheme, host) =>
          if scheme ≠ text "http" ∧ scheme ≠ text "https" then .error (.urlScheme t.url)
          else if host = [] then .error (.urlHost t.url)
          else .ok ()

/-! ## The delay -/

def RetryPolicy.attempts (p : RetryPolicy) : Int64 := if p.maxAttempts = 0 then 3 else p.maxAttempts

def RetryPolicy.initial (p : RetryPolicy) : Int64 := if p.initialBackoff = 0 then 1000000000 else p.initialBackoff

/-- `x << count`, which fails for a negative count. -/
def shiftLeft (x count : Int64) : Option Int64 :=
  if count < 0 then none else some (.ofInt (x.toInt * 2 ^ count.toInt.toNat))

inductive Settlement where
  | term
  | nakWithDelay (delay : Int64)
  | panicked
deriving DecidableEq

/-- What the worker does with a message whose delivery failed but not for good. -/
def retry (p : RetryPolicy) (numDelivered : UInt64) (retryAfter : Option Int64) : Settlement :=
  let attempt := numDelivered.toInt64
  if p.attempts ≤ attempt then .term
  else match shiftLeft 1 (attempt - 1) with
    | none => .panicked
    | some factor =>
      let product := p.initial * factor
      let backoff := if 0 < p.maxBackoff ∧ p.maxBackoff < product then p.maxBackoff else product
      .nakWithDelay (max backoff (retryAfter.getD 0))

def maxDuration : Int := 2 ^ 63 - 1

def RetryPolicy.capped (p : RetryPolicy) (x : Int) : Int := if 0 < p.maxBackoff.toInt then min x p.maxBackoff.toInt else x

/-- The delay before another attempt as it is meant, over the integers. -/
def RetryPolicy.delay (p : RetryPolicy) (n : Nat) (hint : Int) : Int :=
  max hint (min (p.capped (p.initial.toInt * 2 ^ (n - 1))) maxDuration)

def RetryPolicy.Pending (p : RetryPolicy) (n : UInt64) : Prop := 1 ≤ n.toNat ∧ (n.toNat : Int) < p.attempts.toInt

structure RetryPolicy.Exact (p : RetryPolicy) (retryAfter : Option Int64) : Prop where
  exact : ∀ n, p.Pending n → ∃ delay, retry p n retryAfter = .nakWithDelay delay ∧ delay.toInt = p.delay n.toNat (retryAfter.getD 0).toInt
  monotone : ∀ m n delay delay', p.Pending m → p.Pending n → m ≤ n → retry p m retryAfter = .nakWithDelay delay →
    retry p n retryAfter = .nakWithDelay delay' → delay ≤ delay'
  nonneg : ∀ n delay, p.Pending n → retry p n retryAfter = .nakWithDelay delay → 0 ≤ delay

/-- The doubled delay is a duration, or the limit decides in spite of it: the hint is not below the limit, or the
wrapped product is not. -/
def RetryPolicy.Fits (p : RetryPolicy) (n : Nat) (hint : Int) : Prop :=
  p.initial.toInt * 2 ^ (n - 1) ≤ maxDuration ∨ min (p.capped maxDuration) maxDuration ≤ hint ∨
    (0 < p.maxBackoff.toInt ∧ p.maxBackoff.toInt ≤ (p.initial.toInt * 2 ^ (n - 1)).bmod (2 ^ 64))

section Delay

variable {p : RetryPolicy} {n : UInt64}

theorem toInt_max (a b : Int64) : (max a b).toInt = max a.toInt b.toInt := by
  change (if a ≤ b then b else a).toInt = _
  rw [max_def]
  simp only [Int64.le_iff_toInt_le]
  split <;> rfl

theorem RetryPolicy.Pending.attempt (h : p.Pending n) : n.toInt64.toInt = n.toNat := by
  have hUpper := Int64.toInt_lt p.attempts
  have hBelow := h.2
  exact BitVec.toInt_eq_toNat_of_lt (x := n.toBitVec) (by change 2 * n.toNat < 2 ^ 64; omega)

theorem shiftLeft_one (h : p.Pending n) : shiftLeft 1 (n.toInt64 - 1) = some (.ofInt (2 ^ (n.toNat - 1))) := by
  have hUpper := Int64.toInt_lt p.attempts
  have hOne : (1 : Int64).toInt = 1 := rfl
  obtain ⟨hPositive, hBelow⟩ := h
  have hCount : (n.toInt64 - 1).toInt = (n.toNat - 1 : Nat) := by
    rw [Int64.toInt_sub, RetryPolicy.Pending.attempt ⟨hPositive, hBelow⟩, hOne, Int.bmod_eq_of_le (by omega) (by omega)]
    omega
  have hNonneg : ¬ (n.toInt64 - 1 < 0) := by
    rw [Int64.lt_iff_toInt_lt, hCount]
    exact not_lt.mpr (Int.natCast_nonneg _)
  rw [shiftLeft, if_neg hNonneg, hCount, hOne, one_mul, Int.toNat_natCast]

theorem retry_eq (h : p.Pending n) (retryAfter : Option Int64) : ∃ delay, retry p n retryAfter = .nakWithDelay delay ∧
    delay.toInt = max (retryAfter.getD 0).toInt (p.capped ((p.initial.toInt * 2 ^ (n.toNat - 1)).bmod (2 ^ 64))) := by
  have hMore : ¬ (p.attempts ≤ n.toInt64) := by
    rw [Int64.le_iff_toInt_le, h.attempt]
    exact not_le.mpr h.2
  refine ⟨_, by rw [retry, if_neg hMore, shiftLeft_one h], ?_⟩
  have hProduct : (p.initial * .ofInt (2 ^ (n.toNat - 1))).toInt = (p.initial.toInt * 2 ^ (n.toNat - 1)).bmod (2 ^ 64) := by
    rw [Int64.toInt_mul, Int64.toInt_ofInt]
    exact Int.mul_bmod_bmod
  have hZero : (0 : Int64).toInt = 0 := rfl
  rw [toInt_max, max_comm, RetryPolicy.capped, ← hProduct]
  simp only [Int64.lt_iff_toInt_lt, hZero]
  split <;> split <;> omega

theorem RetryPolicy.initial_pos (h : 0 ≤ p.initialBackoff) : 0 < p.initial.toInt := by
  rw [RetryPolicy.initial]
  split
  · decide
  rename_i hNonzero
  have hLe := Int64.le_iff_toInt_le.mp h
  have hNe : p.initialBackoff.toInt ≠ 0 := fun hZero => hNonzero (Int64.toInt_inj.mp hZero)
  exact lt_of_le_of_ne hLe hNe.symm

/-- The wrapped delay is the intended one only if nothing was lost or the limit hides it. -/
theorem capped_wrapped_iff {hint : Int} {k : Nat} (hInitial : 0 < p.initial.toInt) :
    max hint (p.capped ((p.initial.toInt * 2 ^ (k - 1)).bmod (2 ^ 64))) = p.delay k hint ↔ p.Fits k hint := by
  have hInitialUpper := Int64.toInt_lt p.initial
  have hExact : p.initial.toInt * 2 ^ (k - 1) = p.initial.toInt ∨ p.initial.toInt * 2 ^ (k - 1) % 2 = 0 := by
    rcases Nat.eq_zero_or_pos (k - 1) with hZero | hPos
    · exact .inl (by rw [hZero, pow_zero, mul_one])
    · obtain ⟨j, hj⟩ := Nat.exists_eq_add_of_lt hPos
      exact .inr (by rw [hj, pow_succ, ← mul_assoc]; exact Int.mul_emod_left _ _)
  have hNonneg : 0 ≤ p.initial.toInt * 2 ^ (k - 1) := mul_nonneg hInitial.le (by positivity)
  rw [RetryPolicy.delay, RetryPolicy.Fits, RetryPolicy.capped, RetryPolicy.capped, RetryPolicy.capped, maxDuration]
  generalize p.initial.toInt * 2 ^ (k - 1) = x at hExact hNonneg ⊢
  -- an odd product is the initial delay itself, so the largest duration is never what is left of a larger one
  have hWrapped : x.bmod (2 ^ 64) = if x % 2 ^ 64 < 2 ^ 63 then x % 2 ^ 64 else x % 2 ^ 64 - 2 ^ 64 := by
    rw [Int.bmod_def]
    norm_num
  rw [hWrapped]
  split <;> split <;> omega

theorem RetryPolicy.delay_mono (p : RetryPolicy) {m k : Nat} (hint : Int) (h : m ≤ k) (hInitial : 0 < p.initial.toInt) :
    p.delay m hint ≤ p.delay k hint := by
  have hPow : p.initial.toInt * 2 ^ (m - 1) ≤ p.initial.toInt * 2 ^ (k - 1) :=
    mul_le_mul_of_nonneg_left (pow_le_pow_right₀ (by norm_num) (Nat.sub_le_sub_right h 1)) hInitial.le
  unfold RetryPolicy.delay RetryPolicy.capped
  split <;> omega

theorem RetryPolicy.delay_nonneg (p : RetryPolicy) (k : Nat) (hint : Int) (hInitial : 0 < p.initial.toInt) : 0 ≤ p.delay k hint := by
  have hProduct : 0 ≤ p.initial.toInt * 2 ^ (k - 1) := mul_nonneg hInitial.le (by positivity)
  unfold RetryPolicy.delay RetryPolicy.capped maxDuration
  split <;> omega

end Delay

theorem retry_exact_iff (p : RetryPolicy) (retryAfter : Option Int64) (hInitial : 0 ≤ p.initialBackoff) :
    p.Exact retryAfter ↔ ∀ n, p.Pending n → p.Fits n.toNat (retryAfter.getD 0).toInt := by
  have hPositive := RetryPolicy.initial_pos hInitial
  have hDelay : ∀ n, p.Pending n → ∃ delay, retry p n retryAfter = .nakWithDelay delay ∧
      (delay.toInt = p.delay n.toNat (retryAfter.getD 0).toInt ↔ p.Fits n.toNat (retryAfter.getD 0).toInt) := by
    intro n hn
    obtain ⟨delay, hRetry, hValue⟩ := retry_eq hn retryAfter
    exact ⟨delay, hRetry, by rw [hValue]; exact capped_wrapped_iff hPositive⟩
  constructor
  · intro hExact n hn
    obtain ⟨delay, hRetry, hIff⟩ := hDelay n hn
    obtain ⟨delay', hRetry', hValue⟩ := hExact.exact n hn
    cases hRetry.symm.trans hRetry'
    exact hIff.mp hValue
  · intro hFits
    have hValue : ∀ {n delay}, p.Pending n → retry p n retryAfter = .nakWithDelay delay →
        delay.toInt = p.delay n.toNat (retryAfter.getD 0).toInt := by
      intro n delay hn hRetry
      obtain ⟨delay', hRetry', hIff⟩ := hDelay n hn
      cases hRetry.symm.trans hRetry'
      exact hIff.mpr (hFits n hn)
    refine ⟨fun n hn => ?_, fun m n delay delay' hm hn hLe hRetry hRetry' => ?_, fun n delay hn hRetry => ?_⟩
    · obtain ⟨delay, hRetry, -⟩ := hDelay n hn
      exact ⟨delay, hRetry, hValue hn hRetry⟩
    · rw [Int64.le_iff_toInt_le, hValue hm hRetry, hValue hn hRetry']
      exact p.delay_mono _ (UInt64.le_iff_toNat_le.mp hLe) hPositive
    · rw [Int64.le_iff_toInt_le, hValue hn hRetry]
      exact p.delay_nonneg _ _ hPositive

theorem retry_exact_within_hour : RetryPolicy.Exact ⟨3, 0, 3600000000000⟩ none :=
  (retry_exact_iff _ _ (by decide)).mpr fun n hn => by
    have hTwo : n.toNat - 1 ≤ 1 := by
      have hBelow : (n.toNat : Int) < 3 := hn.2
      omega
    refine .inl ?_
    interval_cases n.toNat - 1 <;> decide

/-- A rule that is retried forty times after at most an hour. -/
def patient : Trigger where
  id := text "t"
  database := text "d"
  collection := text "c"
  events := [text "create"]
  url := text "http://h"
  retryPolicy := ⟨40, 0, 3600000000000⟩
  timeout := 0

/-- After thirty-five deliveries the rule is accepted, but is retried at once in place of after an hour. -/
theorem retried_at_once : validateTrigger (fun _ => some (text "http", text "h")) patient = .ok () ∧
    patient.retryPolicy.Pending 35 ∧ retry patient.retryPolicy 35 none = .nakWithDelay 0 ∧
    patient.retryPolicy.delay 35 0 = 3600000000000 ∧ ¬ patient.retryPolicy.Exact none := by
  refine ⟨by decide +kernel, ⟨by decide, by decide⟩, by decide +kernel, by decide +kernel, fun hExact => ?_⟩
  obtain ⟨delay, hRetry, hValue⟩ := hExact.exact 35 ⟨by decide, by decide⟩
  have hZero : retry patient.retryPolicy 35 none = .nakWithDelay 0 := by decide +kernel
  cases hZero.symm.trans hRetry
  revert hValue
  decide +kernel

end Syntrix.Delivery
