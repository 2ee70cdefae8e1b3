import Keyspace.Watch.Forwarder

/-!
# Waiting for a group to grow

The wait reads the members once and then follows the changes since, until there are enough members.
-/

namespace Keyspace

inductive WaitOutcome
  | reached
  | cancelled
  deriving DecidableEq, Repr

structure ThresholdWait where
  group : String
  threshold : Nat
  /-- The members as they were read, changed since. -/
  members : Option ValueMap
  cancelled : Bool
  outcome : Option (Outcome WaitOutcome)

namespace ThresholdWait

def start (group : String) (threshold : Nat) : ThresholdWait := ⟨group, threshold, none, false, none⟩

def finish (t : ThresholdWait) (o : Outcome WaitOutcome) : ThresholdWait := { t with outcome := some o }

def follow (t : ThresholdWait) (members : ValueMap) : ThresholdWait :=
  let t := { t with members := some members }
  if t.threshold ≤ members.size then t.finish (.ok .reached) else t

/-- Takes in what the members were at first. -/
def snapshot (t : ThresholdWait) : Outcome ValueMap → ThresholdWait
  | .ok m => t.follow m
  | .error e => t.finish (.error e)

def heard (t : ThresholdWait) : Next (Outcome Changes) → ThresholdWait
  | .item (.ok c) => t.follow (c.applyTo (t.members.getD .empty))
  | .item (.error e) => t.finish (.error e)
  | .empty => t
  | .ended =>
    t.finish (if t.cancelled then .ok .cancelled
      else .error (.watchStopped "watch stopped before reaching threshold"))

/-- What the wait watches, once the members were read at a revision. -/
def watchRequest (t : ThresholdWait) (revision : Int) : WatchRequest :=
  ⟨t.group, revision + 1, true, true⟩

end ThresholdWait

end Keyspace
