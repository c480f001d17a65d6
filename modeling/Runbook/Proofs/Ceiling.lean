import Runbook.Proofs.Attempts
import Runbook.Proofs.Seconds

/-!
# The ceiling of waits

Delays of a policy grow up to its ceiling, in floating-point seconds, so that without a spread none is longer than the ceiling, up to what the
conversion to seconds changes. The ceiling is a bound of the delays only: where the service asks to wait, the wait is as long as it asks.
-/

namespace Runbook

namespace Extended

/-- The lesser of two numbers is a number that is not greater than the second one. -/
theorem least_finite_right (a : Extended) (cap : Nat) : ∃ m ≤ cap, a.least (.finite cap) = .finite m := by
  cases a with
  | finite a => exact ⟨min a cap, Nat.min_le_right a cap, rfl⟩
  | infinite | undefined => exact ⟨cap, le_rfl, rfl⟩

end Extended

namespace RetryPolicy

/-- A wait is no longer than the ceiling: not at all if the ceiling is below `2 ^ 23` seconds (97 days), otherwise by no more than one part in
`2 ^ 51`. -/
structure WithinCeiling (p : RetryPolicy) (wait : Duration) : Prop where
  exact : p.maxDelay.nanos < 2 ^ 23 * Duration.nanosPerSecond → wait.nanos ≤ p.maxDelay.nanos
  rounded : wait.nanos * 2 ^ 51 ≤ p.maxDelay.nanos * (2 ^ 51 + 1)

variable {p : RetryPolicy}

/-- Without a spread, no delay is longer than what the ceiling is as a number of seconds. -/
theorem delay_le (hjitter : p.jitter = none) (hmax : p.maxDelay.nanos < Duration.range) (attempt : Nat) :
    (p.delay attempt).nanos ≤ (Duration.ofFloatSeconds p.maxDelay.seconds).nanos := by
  obtain ⟨a, b, cap, hcap⟩ := Duration.exists_inSeconds hmax
  obtain ⟨m, hle, hleast⟩ := Extended.least_finite_right (p.initialDelay.seconds.mul (p.multiplier.pow (exponent attempt))) cap
  have hdelay : p.delay attempt = .ofFloatSeconds (.finite m) := by
    rw [delay, hjitter, ← hleast, ← hcap.seconds]
    rfl
  rw [hdelay, hcap.seconds]
  exact Duration.ofFloatSeconds_mono hle

/-- A delay that is not spread keeps to the ceiling. -/
theorem withinCeiling_delay (hjitter : p.jitter = none) (hmax : p.maxDelay.nanos < Duration.range) (attempt : Nat) :
    p.WithinCeiling (p.delay attempt) := by
  have hle := delay_le hjitter hmax attempt
  refine ⟨fun hsmall => ?_, ?_⟩
  · rwa [Duration.ofFloatSeconds_seconds hsmall] at hle
  · exact (Nat.mul_le_mul_right _ hle).trans (Duration.nanos_seconds_le hmax)

/-- Every course of attempts makes no more than one attempt and the retries that are allowed. -/
theorem Course.last_le {W : Type} {attempt : Activity W} {tries : Nat → Try W} {last : Nat} (h : p.Course attempt 0 tries last) :
    last ≤ p.maxRetries :=
  le_of_not_gt fun hlt => h.goesOn _ (Nat.zero_le _) hlt stops_maxRetries

/-- Waits without a spread. Whatever the attempts of a call do and however they are answered, the wait after an attempt is as long as its
error asks to wait, or, where it does not ask, within the ceiling. So for a ceiling below 97 days no wait of a call is longer than the ceiling
if and only if nothing longer was asked for. -/
theorem computed_waits_within_ceiling (p : RetryPolicy) (hjitter : p.jitter = none) (hmax : p.maxDelay.nanos < Duration.range)
    {W : Type} (tool : Value → Activity W) (inputs : Value) (deeds : List (Deed W)) (a : Answer)
    (h : (Activity.retrying p (tool inputs)).Does deeds a) :
    ∃ (tries : Nat → Try W) (waits : Nat → Duration) (k : Nat), k ≤ p.maxRetries ∧
      (∀ i ≤ k, (tool inputs).Does (tries i).deeds (tries i).answer) ∧ a = (tries k).answer ∧
      deeds = (List.range k).flatMap (fun i => (tries i).deeds ++ [.slept (waits i)]) ++ (tries k).deeds ∧
      (∀ i < k, ∀ asked, (tries i).answer.retryAfter? = some asked → waits i = asked) ∧
      (∀ i < k, (tries i).answer.retryAfter? = none → p.WithinCeiling (waits i)) ∧
      (p.maxDelay.nanos < 2 ^ 23 * Duration.nanosPerSecond →
        ((∀ i < k, (waits i).nanos ≤ p.maxDelay.nanos) ↔
          ∀ i < k, ∀ asked, (tries i).answer.retryAfter? = some asked → asked.nanos ≤ p.maxDelay.nanos)) := by
  obtain ⟨tries, k, hcourse, ha, hdeeds⟩ := Activity.does_retrying.mp h
  have hasked : ∀ i < k, ∀ asked, (tries i).answer.retryAfter? = some asked → p.waitAfter i (tries i).answer = asked := by
    intro i _ asked hsome
    rw [waitAfter, hsome, Option.getD_some]
  have hcomputed : ∀ i < k, (tries i).answer.retryAfter? = none → p.WithinCeiling (p.waitAfter i (tries i).answer) := by
    intro i _ hnone
    rw [waitAfter, hnone, Option.getD_none]
    exact withinCeiling_delay hjitter hmax i
  refine ⟨tries, fun i => p.waitAfter i (tries i).answer, k, hcourse.last_le, fun i => hcourse.does i i.zero_le, ha, ?_, hasked, hcomputed,
    fun hsmall => ⟨fun hall i hi asked hsome => hasked i hi asked hsome ▸ hall i hi, fun hall i hi => ?_⟩⟩
  · rw [hdeeds, deedsOf, Nat.sub_zero, List.range_eq_range']
  · cases hsome : (tries i).answer.retryAfter? with
    | none => exact (hcomputed i hi hsome).exact hsmall
    | some asked => exact (congrArg Duration.nanos (hasked i hi asked hsome)).trans_le (hall i hi asked hsome)

/-- At most one retry, after a second or what the service asks for. -/
def once : RetryPolicy := ⟨1, .ofSeconds 1, .ofSeconds 1, .ofNat 2, none⟩

/-- A service that turns the first call away, and answers the others with their inputs. -/
def busyFirst (asked : Option Duration) (inputs : Value) : Activity Nat :=
  .act (· + 1) fun calls => if calls = 0 then .answer (.error (.rateLimit asked)) else .answer (.value inputs)

/-- A tool that is busy at first is called twice, and what is slept between is what it asks for, if it does. -/
theorem does_retrying_busyFirst (asked : Option Duration) (inputs : Value) :
    (Activity.retrying once (busyFirst asked inputs)).Does
      [.acted (· + 1) 0, .slept (asked.getD (once.delay 0)), .acted (· + 1) 1] (.value inputs) :=
  .act (.sleep (.act .answer))

/-- Where the service does not ask, the one wait is within the ceiling. -/
theorem computed_waits_within_ceiling_of_busyFirst :
    (once.jitter = none ∧ once.maxDelay.nanos < Duration.range ∧
      (Activity.retrying once (busyFirst none .null)).Does [.acted (· + 1) 0, .slept (once.delay 0), .acted (· + 1) 1] (.value .null)) ∧
    ∃ (tries : Nat → Try Nat) (waits : Nat → Duration) (k : Nat), k ≤ 1 ∧
      [.acted (· + 1) 0, .slept (once.delay 0), .acted (· + 1) 1] =
        (List.range k).flatMap (fun i => (tries i).deeds ++ [.slept (waits i)]) ++ (tries k).deeds ∧
      ∀ i < k, (tries i).answer.retryAfter? = none → once.WithinCeiling (waits i) := by
  have hdoes := does_retrying_busyFirst none .null
  rw [Option.getD_none] at hdoes
  obtain ⟨tries, waits, k, hk, -, -, hdeeds, -, hcomputed, -⟩ :=
    computed_waits_within_ceiling once rfl (by decide) (busyFirst none) .null _ _ hdoes
  exact ⟨⟨rfl, by decide, hdoes⟩, tries, waits, k, hk, hdeeds, hcomputed⟩

/-- With a ceiling of a second, a service that asks for an hour is waited for an hour. -/
theorem hour_waited_over_ceiling :
    once.jitter = none ∧ once.maxDelay = .ofSeconds 1 ∧
    (Activity.retrying once (busyFirst (some (.ofSeconds 3600)) .null)).Does
      [.acted (· + 1) 0, .slept (.ofSeconds 3600), .acted (· + 1) 1] (.value .null) ∧
    ¬ (Duration.ofSeconds 3600).nanos ≤ once.maxDelay.nanos :=
  ⟨rfl, rfl, does_retrying_busyFirst (some (.ofSeconds 3600)) .null, by decide⟩

end RetryPolicy

end Runbook
