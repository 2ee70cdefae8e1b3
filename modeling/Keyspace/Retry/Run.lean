import Keyspace.Prog
import Keyspace.Retry

/-!
# Running under a policy

A call under a policy is made until it succeeds, fails for good, or the retries are spent; the last
outcome stands.
-/

namespace Keyspace.Retry.Policy

variable {ι : Type} {ρ φ : ι → Type}

def attempt (p : Policy) (i : ι) : Prog ρ φ (Outcome (ρ i)) := .call (some p.timeout) i .done

def runWith (p : Policy) (i : ι) : Nat → Prog ρ φ (Outcome (ρ i))
  | 0 => p.attempt i
  | n + 1 => .call (some p.timeout) i fun
    | .ok a => .done (.ok a)
    | .error f => if f.isTransient then .sleep p.interval (runWith p i n) else .done (.error f)

def run (p : Policy) (i : ι) : Action ρ φ (ρ i) := ExceptT.mk (runWith p i p.retries)

end Keyspace.Retry.Policy
