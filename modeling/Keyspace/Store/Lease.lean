import Keyspace.Store.Write

/-!
# Leases

A lease that is revoked, or whose deadline has passed, takes the keys bound to it along, at one
revision. Deadlines are looked at when a call comes in (`expire`).
-/

namespace Keyspace.Store

def revoke? (s : Store) (lease : Int) : Option Store :=
  (s.leases.get? lease).map fun l =>
    (l.keys.keys.foldl Edit.remove (Edit.start { s with leases := s.leases.erase lease })).commit

def due (s : Store) (now : Nat) : List Int := (s.leases.filter fun _ l => l.deadline ≤ now).keys

def expire (s : Store) (now : Nat) : Store :=
  (s.due now).foldl (fun s l => (s.revoke? l).getD s) s

/-- Times have no end here; that a clock does not tell the deadline is for an environment to say. -/
def grant (s : Store) (now : Nat) (ttl : Int) : Int × Store :=
  (s.nextLease, { s with
    nextLease := s.nextLease + 1
    leases := s.leases.insert s.nextLease ⟨now + ttl.toNat * 1000, .empty⟩ })

end Keyspace.Store
