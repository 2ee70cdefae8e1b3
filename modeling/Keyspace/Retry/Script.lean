import Keyspace.Retry.Run

/-!
# Scripted attempts

An environment whose one call goes as a script says: attempt after attempt, each with its latency and its
outcome, the last one repeated.
-/

namespace Keyspace.Retry

structure Attempt (α : Type) where
  latency : Nat
  outcome : Outcome α

/-- The attempts to come, and how many were made. -/
structure Script (α : Type) where
  attempts : List (Attempt α)
  made : Nat
  time : Nat

/-- An attempt that was made: when it is answered and when its time is up. -/
structure Attempt.Begun (α : Type) where
  due : Nat
  outcome : Outcome α
  /-- The end of the time it has, and how much that was. -/
  deadline : Option (Nat × Nat)

namespace Script

variable {α : Type}

def begin (timeout : Option Nat) (s : Script α) : Attempt.Begun α × Script α :=
  let a : Attempt α := s.attempts.head?.getD ⟨0, .error .cancelled⟩
  (⟨waitEnd s.time a.latency, a.outcome, timeout.map fun t => (s.time + t, t)⟩,
    { s with
      made := s.made + 1
      attempts := if s.attempts.length ≤ 1 then s.attempts else s.attempts.tail })

/-- An answer that comes at the very end of the time is still taken. -/
def poll (b : Attempt.Begun α) (s : Script α) : Attempt.Begun α ⊕ Outcome α :=
  if b.due ≤ s.time then .inr b.outcome
  else match b.deadline with
  | some (t, ms) => if t ≤ s.time then .inr (.error (.requestTimeout ms)) else .inl b
  | none => .inl b

def env : Env (fun _ : Unit => α) (fun _ => Attempt.Begun α) (Script α) where
  now s := s.time
  setNow t s := { s with time := t }
  today _ := ⟨0, 0⟩
  start t _ s := s.begin t
  poll _ b s := (s.poll b, s)
  wake _ b := some (b.deadline.elim b.due fun d => min b.due d.1)

/-- The outcome under a policy, the number of attempts made and the time they took. -/
def run (p : Policy) (attempts : List (Attempt α)) : Option (Outcome α × Nat × Nat) :=
  ((p.run () : Action _ _ α).run.complete env ⟨attempts, 0, 0⟩).map fun (r, s) => (r, s.made, s.time)

end Script

end Keyspace.Retry
