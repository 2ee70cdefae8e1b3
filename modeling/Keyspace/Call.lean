import Keyspace.Store.Basic

/-!
# Calls

The calls that a store answers, and the form of each answer.
-/

namespace Keyspace

inductive CallName
  | range
  | put
  | deleteRange
  | txn
  | watch
  | leaseGrant
  | leaseRevoke
  | memberList
  | endpointStatus
  | moveLeader
  deriving DecidableEq, Repr

inductive Call
  | range (span : Span) (revision : Option Int)
  | put (key value : Bytes) (lease : Option Int)
  | deleteRange (span : Span)
  | txn (t : Txn)
  | watch (span : Span) (start : Option Int)
  | leaseGrant (ttl : Int)
  | leaseRevoke (lease : Int)
  | memberList
  | endpointStatus (endpoint : String)
  | moveLeader (member : Nat)
  deriving DecidableEq, Repr

def Call.name : Call → CallName
  | range .. => .range
  | put .. => .put
  | deleteRange _ => .deleteRange
  | txn _ => .txn
  | watch .. => .watch
  | leaseGrant _ => .leaseGrant
  | leaseRevoke _ => .leaseRevoke
  | memberList => .memberList
  | endpointStatus _ => .endpointStatus
  | moveLeader _ => .moveLeader

/-! ## Answers -/

structure RangeAnswer where
  /-- The store's revision, whatever revision was read. -/
  revision : Int
  records : List Record
  deriving DecidableEq, Repr

structure DeleteAnswer where
  revision : Int
  deleted : Int
  deriving DecidableEq, Repr

structure TxnAnswer where
  succeeded : Bool
  revision : Int
  deriving DecidableEq, Repr

structure LeaseAnswer where
  id : Int
  ttl : Int
  deriving DecidableEq, Repr

structure MemberList where
  clusterId : Nat
  /-- The member that answers. -/
  memberId : Nat
  revision : Int
  term : Nat
  members : List Member
  deriving DecidableEq, Repr

structure EndpointStatus where
  version : String
  dbSize : Int
  dbSizeInUse : Int
  leader : Nat
  raftIndex : Nat
  term : Nat
  appliedIndex : Nat
  learner : Bool
  deriving DecidableEq, Repr

@[reducible] def CallName.Answer : CallName → Type
  | range => RangeAnswer
  | put => Int
  | deleteRange => DeleteAnswer
  | txn => TxnAnswer
  | watch => FeedId
  | leaseGrant => LeaseAnswer
  | leaseRevoke => Unit
  | memberList => MemberList
  | endpointStatus => EndpointStatus
  | moveLeader => Unit

@[reducible] def Call.Answer (c : Call) : Type := c.name.Answer

end Keyspace
