import Keyspace.Call
import Keyspace.Config
import Keyspace.Diff
import Keyspace.Retry.Run

/-!
# Clients

A client is a retry policy and a configuration. Its operations are programs over the calls of a
store; every call is made under the policy.
-/

namespace Keyspace

structure Client where
  policy : Retry.Policy
  config : Config
  deriving DecidableEq, Repr

/-- A listing, and the revision that the store had when it was read. -/
structure Snapshot where
  listing : Listing
  revision : Int
  deriving DecidableEq

variable {φ : Call → Type}

namespace Client

def ofConfig (c : Config) : Client := ⟨c.retry, c⟩

def attempt (c : Client) (i : Call) : Prog Call.Answer φ (Outcome i.Answer) := c.policy.attempt i

def call (c : Client) (i : Call) : Action Call.Answer φ i.Answer := c.policy.run i

/-! ## Single keys -/

def get (c : Client) (key : String) (revision : Option Int) : Action Call.Answer φ (Option Entry) := do
  let a ← c.call (.range (.single (Utf8.encode key)) revision)
  return (a.records.find? (·.createRevision ≠ 0)).map Entry.ofRecord

/-- Answers the revision of the write. -/
def put (c : Client) (key : String) (value : Bytes) : Action Call.Answer φ Int :=
  c.call (.put (Utf8.encode key) value none)

/-- It is no failure if the key is not there. -/
def delete (c : Client) (key : String) : Action Call.Answer φ Unit := do
  let _ ← c.call (.deleteRange (.single (Utf8.encode key)))

/-! ## Spans -/

def list (c : Client) (span : Span) : Action Call.Answer φ Snapshot := do
  let a ← c.call (.range span none)
  return ⟨.ofRecords a.records, a.revision⟩

def clear (c : Client) (span : Span) : Action Call.Answer φ Unit := do
  let _ ← c.call (.deleteRange span)

def listUnder (c : Client) (head : String) : Action Call.Answer φ Snapshot :=
  c.list (.under (Utf8.encode head))

def clearUnder (c : Client) (head : String) : Action Call.Answer φ Unit :=
  c.clear (.under (Utf8.encode head))

/-! ## Diffs

The two sides of a diff are read one after the other, maybe at different revisions. -/

/-- The diff that turns the keys under `dst` into those under `src`. -/
def diffHeads (c : Client) (src dst : String) : Action Call.Answer φ Diff := do
  let s ← c.listUnder src
  let d ← c.listUnder dst
  return .betweenListings s.listing src d.listing dst

/-- The diff between the keys under `head` and a given listing, in either direction. -/
def diffListing (c : Client) (head : String) (given : Listing) (givenHead : String) (givenIsSource : Bool) :
    Action Call.Answer φ Diff := do
  let s ← c.listUnder head
  return if givenIsSource then .betweenListings given givenHead s.listing head
    else .betweenListings s.listing head given givenHead

/-- Applies a diff under `head` in one transaction; an empty one makes no call. -/
def applyDiff (c : Client) (head : String) (d : Diff) : Action Call.Answer φ Unit := do
  if !d.isEmpty then
    let a ← c.call (.txn (.always (d.ops head)))
    if !a.succeeded then throw (.txnFailed ("applying diff under " ++ head))

/-- Makes the keys under `dst` those under `src`, and answers the diff. -/
def sync (c : Client) (src dst : String) : Action Call.Answer φ Diff := do
  let d ← c.diffHeads src dst
  c.applyDiff dst d
  return d

/-! ## Groups

A member of a group is a key under the group's head. -/

def join (c : Client) (group member : String) (content : Bytes) : Action Call.Answer φ Unit := do
  let _ ← c.put (group ++ member) content

def leave (c : Client) (group member : String) : Action Call.Answer φ Unit := c.delete (group ++ member)

/-- The members with their contents, and the revision at which they were read. -/
def members (c : Client) (group : String) : Action Call.Answer φ (ValueMap × Int) := do
  let s ← c.listUnder group
  return (s.listing.valueMap group, s.revision)

end Client

end Keyspace
