import Mathlib.Data.List.Basic
import Mathlib.Data.Nat.Find
import Mathlib.Order.Basic
import Runbook.Tool.Retry

/-!
# Attempts

A call under a policy of retries is a sequence of attempts, all with the same inputs, with a wait between each and the next. It ends
with the first attempt that succeeds, fails for good, or is the last one allowed, and is answered as this attempt is. What an attempt
does and how it is answered is left open: the world that it finds may be any, whatever others do to it in the meantime.
-/

namespace Runbook

/-- One thing that an activity does. What it does to the world depends on the world that it finds. -/
inductive Deed (W : Type) where
  | slept (d : Duration)
  | cancelled
  | acted (update : W → W) (found : W)

namespace Activity

variable {W : Type}

/-- An activity may do these things, one after the other, and then be answered so. -/
inductive Does : Activity W → List (Deed W) → Answer → Prop
  | answer {a : Answer} : Does (.answer a) [] a
  | sleep {d : Duration} {rest : Activity W} {deeds : List (Deed W)} {a : Answer} (h : Does rest deeds a) :
    Does (.sleep d rest) (.slept d :: deeds) a
  | cancel {rest : Activity W} {deeds : List (Deed W)} {a : Answer} (h : Does rest deeds a) : Does (.cancel rest) (.cancelled :: deeds) a
  | act {update : W → W} {rest : W → Activity W} {found : W} {deeds : List (Deed W)} {a : Answer} (h : Does (rest found) deeds a) :
    Does (.act update rest) (.acted update found :: deeds) a

/-- An activity that answers does nothing else. -/
theorem does_answer {a b : Answer} {deeds : List (Deed W)} : (answer a : Activity W).Does deeds b ↔ deeds = [] ∧ b = a := by
  constructor
  · intro h
    cases h
    exact ⟨rfl, rfl⟩
  · rintro ⟨rfl, rfl⟩
    exact .answer

/-- An activity that sleeps has slept before all that it does then. -/
theorem does_sleep {d : Duration} {rest : Activity W} {a : Answer} {deeds : List (Deed W)} :
    (sleep d rest).Does deeds a ↔ ∃ later, rest.Does later a ∧ deeds = .slept d :: later := by
  constructor
  · intro h
    cases h with
    | sleep h => exact ⟨_, h, rfl⟩
  · rintro ⟨later, h, rfl⟩
    exact .sleep h

/-- What goes on after an answer is done after what led to the answer. -/
theorem does_bind {x : Activity W} {f : Answer → Activity W} {a : Answer} {deeds : List (Deed W)} :
    (x.bind f).Does deeds a ↔ ∃ first b later, x.Does first b ∧ (f b).Does later a ∧ deeds = first ++ later := by
  constructor
  · intro h
    induction x generalizing deeds with
    | answer b => exact ⟨[], b, deeds, .answer, h, rfl⟩
    | sleep d rest ih =>
      cases h with
      | sleep h =>
        obtain ⟨first, b, later, hfirst, hlater, rfl⟩ := ih h
        exact ⟨_, b, later, .sleep hfirst, hlater, rfl⟩
    | cancel rest ih =>
      cases h with
      | cancel h =>
        obtain ⟨first, b, later, hfirst, hlater, rfl⟩ := ih h
        exact ⟨_, b, later, .cancel hfirst, hlater, rfl⟩
    | act update rest ih =>
      cases h with
      | act h =>
        obtain ⟨first, b, later, hfirst, hlater, rfl⟩ := ih _ h
        exact ⟨_, b, later, .act hfirst, hlater, rfl⟩
  · rintro ⟨first, b, later, hfirst, hlater, rfl⟩
    induction hfirst with
    | answer => exact hlater
    | sleep _ ih => exact .sleep (ih hlater)
    | cancel _ ih => exact .cancel (ih hlater)
    | act _ ih => exact .act (ih hlater)

end Activity

/-- How long the remote service asks to wait, if the answer is an error that says so. -/
def Answer.retryAfter? : Answer → Option Duration
  | .error e => e.retryAfter?
  | .value _ | .panic => none

/-- One attempt: what it does and how it is answered. -/
structure Try (W : Type) where
  deeds : List (Deed W)
  answer : Answer

namespace RetryPolicy

variable {W : Type}

/-- No attempt is made after the one with this number, counted from zero: it succeeded, failed for good, or was the last one allowed. -/
def Stops (p : RetryPolicy) (number : Nat) : Answer → Prop
  | .error e => e.retryable = false ∨ number = p.maxRetries
  | .value _ | .panic => True

/-- The wait after the attempt with this number: what the service asks for, or the delay of the attempt. -/
def waitAfter (p : RetryPolicy) (number : Nat) (a : Answer) : Duration := a.retryAfter?.getD (p.delay number)

/-- An attempt is followed by another one exactly if it failed, but not for good, and is not the last one allowed. -/
theorem not_stops {p : RetryPolicy} {number : Nat} {a : Answer} :
    ¬p.Stops number a ↔ ∃ e, a = .error e ∧ e.retryable = true ∧ number ≠ p.maxRetries := by
  cases a <;> simp [Stops]

/-- The attempts stop with the last one that the policy allows. -/
theorem stops_maxRetries {p : RetryPolicy} {a : Answer} : p.Stops p.maxRetries a := by
  by_contra h
  obtain ⟨e, -, -, hne⟩ := not_stops.mp h
  exact hne rfl

/-- Some attempt is the last one, at the latest that after which no more retries are allowed. -/
theorem exists_last (p : RetryPolicy) (answers : Nat → Answer) :
    ∃ last ≤ p.maxRetries, p.Stops last (answers last) ∧ ∀ i < last, ¬p.Stops i (answers i) := by
  classical
  have hex : ∃ i, p.Stops i (answers i) := ⟨p.maxRetries, stops_maxRetries⟩
  exact ⟨Nat.find hex, Nat.find_min' hex stops_maxRetries, Nat.find_spec hex, fun i hi => Nat.find_min hex hi⟩

/-- The attempts of a call from the first of these numbers on: each does what an attempt may do, and the last one is the first after which
no other is made. -/
structure Course (p : RetryPolicy) (attempt : Activity W) (first : Nat) (tries : Nat → Try W) (last : Nat) : Prop where
  le : first ≤ last
  does : ∀ i, first ≤ i → i ≤ last → attempt.Does (tries i).deeds (tries i).answer
  goesOn : ∀ i, first ≤ i → i < last → ¬p.Stops i (tries i).answer
  stops : p.Stops last (tries last).answer

/-- What these attempts do, with the waits between them. -/
def deedsOf (p : RetryPolicy) (tries : Nat → Try W) (first last : Nat) : List (Deed W) :=
  (List.range' first (last - first)).flatMap (fun i => (tries i).deeds ++ [.slept (p.waitAfter i (tries i).answer)]) ++ (tries last).deeds

variable {p : RetryPolicy} {attempt : Activity W} {tries : Nat → Try W} {first last : Nat}

/-- What one attempt does is all that is done when it is the last. -/
theorem deedsOf_self (p : RetryPolicy) (tries : Nat → Try W) (last : Nat) : p.deedsOf tries last last = (tries last).deeds := by
  simp [deedsOf]

/-- What is done from an attempt on is what it does, a wait, and what is done from the next one on. -/
theorem deedsOf_of_lt (p : RetryPolicy) (tries : Nat → Try W) (h : first < last) :
    p.deedsOf tries first last =
      (tries first).deeds ++ .slept (p.waitAfter first (tries first).answer) :: p.deedsOf tries (first + 1) last := by
  rw [deedsOf, show last - first = last - (first + 1) + 1 by omega, List.range'_succ, List.flatMap_cons]
  simp [deedsOf]

/-- The first attempt and those after it. -/
theorem Course.next (h : p.Course attempt first tries last) (hlt : first < last) : p.Course attempt (first + 1) tries last :=
  ⟨hlt, fun i hle => h.does i (Nat.le_of_succ_le hle), fun i hle => h.goesOn i (Nat.le_of_succ_le hle), h.stops⟩

/-- One attempt after which none is to follow is a course of attempts. -/
theorem Course.single (did : Try W) (hdoes : attempt.Does did.deeds did.answer) (hstops : p.Stops first did.answer) :
    p.Course attempt first (fun _ => did) first :=
  ⟨le_rfl, fun _ _ _ => hdoes, fun _ hle hlt => absurd hle (not_le.mpr hlt), hstops⟩

/-- One attempt more before the others. -/
theorem Course.cons (h : p.Course attempt (first + 1) tries last) {did : Try W} (hdoes : attempt.Does did.deeds did.answer)
    (hgoesOn : ¬p.Stops first did.answer) :
    p.Course attempt first (Function.update tries first did) last ∧
      p.deedsOf (Function.update tries first did) first last =
        did.deeds ++ .slept (p.waitAfter first did.answer) :: p.deedsOf tries (first + 1) last := by
  have hlt : first < last := h.le
  have hsame (i : Nat) (hi : first + 1 ≤ i) : Function.update tries first did i = tries i :=
    Function.update_of_ne (show i ≠ first by omega) did tries
  refine ⟨⟨hlt.le, fun i hle hle' => ?_, fun i hle hlt' => ?_, ?_⟩, ?_⟩
  · rcases hle.eq_or_lt with rfl | hi
    · rwa [Function.update_self]
    · rw [hsame i hi]
      exact h.does i hi hle'
  · rcases hle.eq_or_lt with rfl | hi
    · rwa [Function.update_self]
    · rw [hsame i hi]
      exact h.goesOn i hi hlt'
  · rw [hsame last hlt]
    exact h.stops
  · have hlater : p.deedsOf (Function.update tries first did) (first + 1) last = p.deedsOf tries (first + 1) last := by
      unfold deedsOf
      rw [hsame last hlt]
      congr 1
      refine List.flatMap_congr fun i hi => ?_
      rw [hsame i (List.mem_range'_1.mp hi).1]
    rw [deedsOf_of_lt _ _ hlt, Function.update_self, hlater]

end RetryPolicy

namespace Activity

open RetryPolicy

variable {W : Type} {p : RetryPolicy} {attempt : Activity W}

/-- One attempt with others after it: if it is followed by another one, what it does is followed by the wait. -/
theorem does_retryFrom_succ {number left : Nat} {deeds : List (Deed W)} {a : Answer} (hnumber : number ≠ p.maxRetries) :
    (retryFrom p attempt number (left + 1)).Does deeds a ↔
      (attempt.Does deeds a ∧ p.Stops number a) ∨
      ∃ (did : Try W) (later : List (Deed W)), attempt.Does did.deeds did.answer ∧ ¬p.Stops number did.answer ∧
        (retryFrom p attempt (number + 1) left).Does later a ∧ deeds = did.deeds ++ .slept (p.waitAfter number did.answer) :: later := by
  rw [retryFrom, does_bind]
  constructor
  · rintro ⟨first, b, later, hfirst, hlater, rfl⟩
    cases b with
    | value v | panic =>
      obtain ⟨rfl, rfl⟩ := does_answer.mp hlater
      rw [List.append_nil]
      exact Or.inl ⟨hfirst, trivial⟩
    | error e =>
      dsimp only at hlater
      split at hlater
      · rename_i hretryable
        obtain ⟨later, hrest, rfl⟩ := does_sleep.mp hlater
        exact Or.inr ⟨⟨first, .error e⟩, later, hfirst, not_stops.mpr ⟨e, rfl, hretryable, hnumber⟩, hrest, rfl⟩
      · rename_i hlasting
        obtain ⟨rfl, rfl⟩ := does_answer.mp hlater
        rw [List.append_nil]
        exact Or.inl ⟨hfirst, Or.inl (by simpa using hlasting)⟩
  · rintro (⟨hdoes, hstops⟩ | ⟨⟨first, b⟩, later, hdoes, hgoesOn, hlater, rfl⟩)
    · refine ⟨deeds, a, [], hdoes, ?_, (List.append_nil _).symm⟩
      cases a with
      | value v | panic => exact .answer
      | error e =>
        dsimp only
        rw [if_neg (by simpa using hstops.resolve_right hnumber)]
        exact .answer
    · obtain ⟨e, rfl, hretryable, -⟩ := not_stops.mp hgoesOn
      refine ⟨first, .error e, _, hdoes, ?_, rfl⟩
      dsimp only
      rw [if_pos hretryable]
      exact .sleep hlater

/-- What is done from one attempt on, with so many retries left, is what a sequence of attempts does. Where no retry is left, the first
attempt is the last. -/
theorem does_retryFrom {left number : Nat} (hleft : number + left = p.maxRetries) {deeds : List (Deed W)} {a : Answer} :
    (retryFrom p attempt number left).Does deeds a ↔
      ∃ tries last, p.Course attempt number tries last ∧ a = (tries last).answer ∧ deeds = p.deedsOf tries number last := by
  induction left generalizing number deeds with
  | zero =>
    obtain rfl : number = p.maxRetries := hleft
    constructor
    · intro h
      exact ⟨fun _ => ⟨deeds, a⟩, p.maxRetries, .single ⟨deeds, a⟩ h stops_maxRetries, rfl, by rw [deedsOf_self]⟩
    · rintro ⟨tries, last, h, rfl, rfl⟩
      obtain rfl : p.maxRetries = last := h.le.eq_of_not_lt fun hlt => h.goesOn _ le_rfl hlt stops_maxRetries
      rw [deedsOf_self]
      exact h.does _ le_rfl le_rfl
  | succ left ih =>
    rw [does_retryFrom_succ (by omega)]
    constructor
    · rintro (⟨hdoes, hstops⟩ | ⟨did, later, hdoes, hgoesOn, hlater, rfl⟩)
      · exact ⟨fun _ => ⟨deeds, a⟩, number, .single ⟨deeds, a⟩ hdoes hstops, rfl, by rw [deedsOf_self]⟩
      · obtain ⟨tries, last, h, rfl, rfl⟩ := (ih (by omega)).mp hlater
        obtain ⟨hcourse, hdeeds⟩ := h.cons hdoes hgoesOn
        have hlast : Function.update tries number did last = tries last :=
          Function.update_of_ne (show last ≠ number from (Nat.lt_of_succ_le h.le).ne') did tries
        exact ⟨_, last, hcourse, by rw [hlast], hdeeds.symm⟩
    · rintro ⟨tries, last, h, rfl, rfl⟩
      rcases h.le.eq_or_lt with rfl | hlt
      · rw [deedsOf_self]
        exact Or.inl ⟨h.does _ le_rfl le_rfl, h.stops⟩
      · exact Or.inr ⟨tries number, _, h.does _ le_rfl hlt.le, h.goesOn _ le_rfl hlt,
          (ih (by omega)).mpr ⟨tries, last, h.next hlt, rfl, rfl⟩, deedsOf_of_lt p tries hlt⟩

/-- What a call under a policy does is what its attempts do. -/
theorem does_retrying {deeds : List (Deed W)} {a : Answer} :
    (retrying p attempt).Does deeds a ↔
      ∃ tries last, p.Course attempt 0 tries last ∧ a = (tries last).answer ∧ deeds = p.deedsOf tries 0 last :=
  does_retryFrom (Nat.zero_add _)

/-- Retries. However attempts are answered, some attempt, at the latest the one after which no more retries are allowed, is the first that
succeeds, fails for good, or is the last one allowed. What a call under a policy does, and its answer, are what attempts do up to this one,
all with the same inputs, and its answer. Between each and the next there is a wait and nothing else: as long as the service asks to wait,
or, where it does not ask, the delay of the attempt. -/
theorem attempts_until_last (p : RetryPolicy) (tool : Value → Activity W) (inputs : Value) :
    (∀ answers : Nat → Answer, ∃ k ≤ p.maxRetries, p.Stops k (answers k) ∧ ∀ i < k, ¬p.Stops i (answers i)) ∧
    ∀ deeds a, (retrying p (tool inputs)).Does deeds a ↔ ∃ (tries : Nat → Try W) (k : Nat),
      (∀ i ≤ k, (tool inputs).Does (tries i).deeds (tries i).answer) ∧
      p.Stops k (tries k).answer ∧ (∀ i < k, ¬p.Stops i (tries i).answer) ∧ a = (tries k).answer ∧
      deeds = (List.range k).flatMap (fun i =>
        (tries i).deeds ++ [.slept ((tries i).answer.retryAfter?.getD (p.delay i))]) ++ (tries k).deeds := by
  refine ⟨p.exists_last, fun deeds a => ?_⟩
  rw [does_retrying]
  simp only [deedsOf, ← List.range_eq_range', Nat.sub_zero, waitAfter]
  constructor
  · rintro ⟨tries, k, h, ha, hdeeds⟩
    exact ⟨tries, k, fun i => h.does i i.zero_le, h.stops, fun i => h.goesOn i i.zero_le, ha, hdeeds⟩
  · rintro ⟨tries, k, hdoes, hstops, hgoesOn, ha, hdeeds⟩
    exact ⟨tries, k, ⟨k.zero_le, fun i _ => hdoes i, fun i _ => hgoesOn i, hstops⟩, ha, hdeeds⟩

end Activity

end Runbook
