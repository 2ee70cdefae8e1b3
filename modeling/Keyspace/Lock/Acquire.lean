import Keyspace.Client
import Keyspace.Lock.Lock

/-!
# Taking and releasing locks

A round of taking a lock looks at the key, takes a lease and then writes the lock record if the key
is still absent. A round that meets a held lock, or loses a race for it, costs time but no retry;
a round that meets a transient failure costs a retry.
-/

namespace Keyspace

/-- A zero stands for what the configuration says. -/
structure LockRequest where
  key : String
  /-- In seconds. -/
  ttl : Int
  timeout : Nat
  /-- How long to wait between contended rounds. -/
  interval : Nat
  /-- What must hold besides. -/
  conditions : List Condition
  deriving DecidableEq, Repr

def LockRequest.withDefaults (r : LockRequest) (d : LockDefaults) : LockRequest :=
  { r with
    ttl := if r.ttl = 0 then d.ttl else r.ttl
    timeout := if r.timeout = 0 then d.timeout else r.timeout
    interval := if r.interval = 0 then d.interval else r.interval }

def LockRequest.txn (r : LockRequest) (l : Lock) : Txn :=
  .provided (.keyPresent r.key false :: r.conditions) [.put (Utf8.encode r.key) l.toBytes (some l.lease)]

inductive LockRound
  | taken (l : Lock)
  | contended
  /-- The failure may be worth another round. -/
  | failed (f : Failure)
  /-- The failure is final. -/
  | fatal (f : Failure)

variable {φ : Call → Type}

namespace Client

def revokeLease (c : Client) (lease : Int) : Action Call.Answer φ Unit := c.call (.leaseRevoke lease)

/-- Tries to write the record, and gives the lease back if that did not work. -/
def writeLock (c : Client) (r : LockRequest) (lease : Int) : Prog Call.Answer φ LockRound := do
  let l : Lock := ⟨lease, r.ttl, ← Prog.today, 0⟩
  match ← c.attempt (.txn (r.txn l)) with
  | .ok a =>
    if a.succeeded then return .taken { l with revision := a.revision }
    match ← (c.revokeLease lease).run with
    | .ok _ => return .contended
    | .error f => return .fatal f
  | .error f =>
    match ← (c.revokeLease lease).run with
    | .ok _ => return .failed f
    | .error _ => return .fatal f

def lockRound (c : Client) (r : LockRequest) : Prog Call.Answer φ LockRound := do
  match ← c.attempt (.range (.single (Utf8.encode r.key)) none) with
  | .error f => return .failed f
  | .ok a =>
    if !a.records.isEmpty then return .contended
    match ← c.attempt (.leaseGrant r.ttl) with
    | .error f => return .failed f
    | .ok g => c.writeLock r g.id

/-- Rounds up to the deadline. There is time for `rounds` of them at most, retries aside; rounds that take no
time use them up before it, and then the deadline is waited for. -/
def lockRounds (c : Client) (r : LockRequest) (deadline : Nat) :
    Nat → Nat → Prog Call.Answer φ (Outcome Lock)
  | 0, _ => .sleepUntil (deadline + 1) (.done (.error (.lockDeadlineExceeded r.key)))
  | rounds + 1, retries => do
    if deadline < (← Prog.now) then return .error (.lockDeadlineExceeded r.key)
    match ← c.lockRound r with
    | .taken l => return .ok l
    | .fatal f => return .error f
    | .contended =>
      Prog.wait r.interval
      c.lockRounds r deadline rounds retries
    | .failed f =>
      match Retry.spend retries f with
      | none => return .error f
      | some retries =>
        Prog.wait c.policy.interval
        c.lockRounds r deadline rounds retries

/-- Contended rounds are one wait apart, or else take a millisecond at least, so this many rounds
pass the deadline. -/
def roundLimit (c : Client) (r : LockRequest) : Nat :=
  r.timeout / max 1 (min r.interval longestWait) + c.policy.retries + 2

/-- The deadline is a time that the clock is to tell. -/
def acquireLock (c : Client) (r : LockRequest) : Action Call.Answer φ Lock := ExceptT.mk do
  let r := r.withDefaults c.config.lock
  let start ← Prog.now
  c.lockRounds r (start + r.timeout) (c.roundLimit r) c.policy.retries

def readLock (c : Client) (key : String) : Action Call.Answer φ Lock := do
  match ← c.get key none with
  | none => throw (.keyNotFound key)
  | some e =>
    match Lock.ofBytes? e.value with
    | none => throw .codec
    | some l => return { l with revision := e.modRevision }

/-- Releases a lock by ending its lease. -/
def releaseLock (c : Client) (key : String) : Action Call.Answer φ Unit := do
  let l ← c.readLock key
  c.revokeLease l.lease

end Client

end Keyspace
