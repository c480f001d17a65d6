/-!
# Semaphores

A semaphore has a number of permits and hands them out first come, first served. A permit that is given back while someone waits is
handed to the first who does, so that nobody who comes later gets it before.
-/

namespace Runbook

/-- A semaphore: how many of its permits are out, who has been handed one and has not gone on with it yet, and who waits for one, in
the order of asking. -/
structure Semaphore where
  taken : Nat
  handed : List String
  queue : List String

namespace Semaphore

/-- The most permits that a semaphore can have. Making one with more panics. -/
def maxPermits : Nat := (UInt64.size - 1) / 8

/-- A semaphore of which no permit is out. -/
def idle : Semaphore := ⟨0, [], []⟩

/-- Whether someone has asked for a permit and has not gone on with it yet. -/
def knows (id : String) (s : Semaphore) : Bool := s.handed.contains id || s.queue.contains id

/-- Someone asks for one of so many permits. -/
def acquire (permits : Nat) (id : String) (s : Semaphore) : Semaphore :=
  if s.taken < permits then { s with taken := s.taken + 1, handed := s.handed ++ [id] } else { s with queue := s.queue ++ [id] }

/-- Someone goes on with the permit that it was handed. -/
def take (id : String) (s : Semaphore) : Semaphore := { s with handed := s.handed.erase id }

/-- A permit is given back. -/
def release (s : Semaphore) : Semaphore :=
  match s.queue with
  | [] => { s with taken := s.taken - 1 }
  | id :: queue => { s with handed := s.handed ++ [id], queue }

end Semaphore

end Runbook
