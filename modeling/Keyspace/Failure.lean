/-!
# Failures

Every operation fails with a `Failure`. Its `kind` is what callers decide by; only an unavailable
store and a dropped proposal are worth another try (`isTransient`).
-/

namespace Keyspace

inductive ContractError
  | firstFrameNotOverview
  | frameNotChanges
  | opsMiscount
  | invalidChangeType
  deriving DecidableEq, Repr

def ContractError.message : ContractError → String
  | firstFrameNotOverview => "first key diff frame was not an overview"
  | frameNotChanges => "key diff frame after the first was not a changes frame"
  | opsMiscount => "number of operations in key diff frames did not match overview"
  | invalidChangeType => "change type for one of the changes was not valid"

inductive Failure
  /-- The store, or the member that serves the call, can not answer now. -/
  | unavailable (message : String)
  /-- A write was lost in a change of leadership. -/
  | proposalDropped
  /-- One call took longer than it may. -/
  | requestTimeout (ms : Nat)
  | lockDeadlineExceeded (key : String)
  | keyNotFound (key : String)
  | leaseNotFound (lease : Int)
  | txnFailed (context : String)
  /-- The revision asked for is below the compaction floor. -/
  | revisionCompacted (revision floor : Int)
  /-- A chunk that must exist at the pinned revision does not. -/
  | chunkMissing (key : String) (revision : Int)
  | watchStopped (message : String)
  | cancelled
  | contract (error : ContractError)
  | cluster (message : String)
  | invalidRequest (message : String)
  | codec
  | io (text : String)
  | backend (message : String)
  deriving DecidableEq, Repr

inductive FailureKind
  | unavailable
  | proposalDropped
  | notFound
  | preconditionFailed
  | cancelled
  | deadlineExceeded
  | consistency
  | contract
  | invalid
  | internal
  deriving DecidableEq, Repr

def FailureKind.name : FailureKind → String
  | unavailable => "Unavailable"
  | proposalDropped => "ProposalDropped"
  | notFound => "NotFound"
  | preconditionFailed => "PreconditionFailed"
  | cancelled => "Cancelled"
  | deadlineExceeded => "DeadlineExceeded"
  | consistency => "Consistency"
  | contract => "Contract"
  | invalid => "Invalid"
  | internal => "Internal"

namespace Failure

def kind : Failure → FailureKind
  | unavailable _ => .unavailable
  | proposalDropped => .proposalDropped
  | requestTimeout _ | lockDeadlineExceeded _ => .deadlineExceeded
  | keyNotFound _ | leaseNotFound _ => .notFound
  | txnFailed _ | cluster _ => .preconditionFailed
  | revisionCompacted .. | chunkMissing .. => .consistency
  | cancelled => .cancelled
  | contract _ => .contract
  | invalidRequest _ => .invalid
  | watchStopped _ | codec | io _ | backend _ => .internal

def message : Failure → String
  | unavailable m => "store unavailable: " ++ m
  | proposalDropped => "raft proposal dropped"
  | requestTimeout ms => "request timed out after " ++ toString ms ++ "ms"
  | lockDeadlineExceeded key => "could not acquire lock on key " ++ key ++ " before deadline"
  | keyNotFound key => "key not found: " ++ key
  | leaseNotFound lease => "lease " ++ toString lease ++ " not found"
  | txnFailed context => "transaction failed: " ++ context
  | revisionCompacted revision floor =>
    "revision " ++ toString revision ++ " has been compacted; compaction floor is " ++ toString floor
  | chunkMissing key revision =>
    key ++ " chunk key not found at revision " ++ toString revision
  | watchStopped m => "watch stopped: " ++ m
  | cancelled => "operation cancelled"
  | contract e => e.message
  | cluster m => "cluster: " ++ m
  | invalidRequest m => "invalid request: " ++ m
  | codec => "codec error"
  | io text => "io error: " ++ text
  | backend m => "backend error: " ++ m

def isTransient (f : Failure) : Bool :=
  f.kind = .unavailable || f.kind = .proposalDropped

def isContract : Failure → Bool
  | contract _ => true
  | _ => false

def isLockDeadline : Failure → Bool
  | lockDeadlineExceeded _ => true
  | _ => false

end Failure

abbrev Outcome (α : Type) := Except Failure α

end Keyspace
