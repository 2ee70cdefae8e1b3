import Keyspace.Store.Cluster
import Keyspace.Store.Compact
import Keyspace.Store.Feed
import Keyspace.Store.Lease

/-!
# Backends

A backend is a store that counts its calls and fails those that its fault rules are for. A call that
gets past the rules first ends the leases that are due (`Store.answer`).
-/

namespace Keyspace

namespace Store

def answer (s : Store) (now : Nat) (c : Call) : Outcome c.Answer × Store :=
  match c with
  | .range span revision =>
    let s := s.expire now
    ((s.read span revision).map fun rs => ⟨s.revision, rs⟩, s)
  | .put key value lease =>
    let s := s.expire now
    match s.commit? [.put key value lease] with
    | .error f => (.error f, s)
    | .ok s => (.ok s.revision, s)
  | .deleteRange span =>
    let s := s.expire now
    let e := (Edit.start s).delete span
    let s := e.commit
    (.ok ⟨s.revision, e.events.length⟩, s)
  | .txn t =>
    let s := s.expire now
    let succeeded := s.satisfies t.conditions
    match s.commit? (if succeeded then t.success else t.failure) with
    | .error f => (.error f, s)
    | .ok s => (.ok ⟨succeeded, s.revision⟩, s)
  | .watch span start =>
    let (id, s) := (s.expire now).watch span start
    (.ok id, s)
  | .leaseGrant ttl =>
    if ttl ≤ 0 then (.error (.invalidRequest ("lease ttl must be > 0, got " ++ toString ttl)), s)
    else
      let (id, s) := (s.expire now).grant now ttl
      (.ok ⟨id, ttl⟩, s)
  | .leaseRevoke lease =>
    let s := s.expire now
    match s.revoke? lease with
    | none => (.error (.leaseNotFound lease), s)
    | some s => (.ok (), s)
  | .memberList =>
    let s := s.expire now
    (.ok s.memberList, s)
  | .endpointStatus endpoint =>
    let s := s.expire now
    (s.endpointStatus endpoint, s)
  | .moveLeader member =>
    let s := s.expire now
    match s.moveLeader member with
    | .error f => (.error f, s)
    | .ok s => (.ok (), s)

end Store

/-! ## Faults -/

inductive FaultKind
  | unavailable
  | proposalDropped
  | fatal
  deriving DecidableEq, Repr

def FaultKind.failure : FaultKind → Failure
  | unavailable => .unavailable "injected: etcdserver: leader changed"
  | proposalDropped => .proposalDropped
  | fatal => .backend "injected fatal fault"

structure FaultRule where
  /-- The calls it is for; all if none is named. -/
  on : Option CallName
  /-- How many more calls it fails; no limit if there is none. -/
  remaining : Option Nat
  kind : FaultKind
  deriving DecidableEq, Repr

def FaultRule.applies (r : FaultRule) (n : CallName) : Bool :=
  (r.on = none || r.on = some n) && r.remaining ≠ some 0

def FaultRule.used (r : FaultRule) : FaultRule := { r with remaining := r.remaining.map (· - 1) }

structure Backend where
  store : Store
  /-- The oldest first. -/
  faults : List FaultRule
  calls : List CallName

namespace Backend

def ofMembers (names : List String) : Backend := ⟨.ofMembers names, [], []⟩

/-- The oldest rule that applies, and the rules once it is used. -/
def meetFault (n : CallName) : List FaultRule → Option (FaultKind × List FaultRule)
  | [] => none
  | r :: rs =>
    if r.applies n then some (r.kind, r.used :: rs)
    else (meetFault n rs).map fun (k, rs) => (k, r :: rs)

/-- Takes a call in. A call that fails by a rule does not reach the store. -/
def answer (b : Backend) (now : Nat) (c : Call) : Outcome c.Answer × Backend :=
  let b := { b with calls := c.name :: b.calls }
  match meetFault c.name b.faults with
  | some (k, rules) => (.error k.failure, { b with faults := rules })
  | none =>
    let (r, s) := b.store.answer now c
    (r, { b with store := s })

def callCount (b : Backend) (on : Option CallName) : Nat :=
  match on with
  | none => b.calls.length
  | some n => b.calls.count n

def fail (b : Backend) (r : FaultRule) : Backend := { b with faults := b.faults ++ [r] }

/-- The number of leases that are not due. -/
def leaseCount (b : Backend) (now : Nat) : Nat × Backend :=
  let s := b.store.expire now
  (s.leases.size, { b with store := s })

end Backend

end Keyspace
