import Keyspace.Store.Basic

/-!
# Writing

Operations are applied one after the other to an edit, which is then committed as one batch at one
new revision. An edit without events leaves the store as it was.
-/

namespace Keyspace

/-- A store in the middle of a commit, with the events so far. -/
structure Edit where
  store : Store
  /-- The revision that the commit will have. -/
  revision : Int
  events : List Event

namespace Edit

def start (s : Store) : Edit := ⟨s, s.revision + 1, []⟩

def unbind (s : Store) (lease : Int) (key : Bytes) : Store :=
  match s.leases.get? lease with
  | none => s
  | some l => { s with leases := s.leases.insert lease { l with keys := l.keys.erase key } }

def bind (s : Store) (lease : Int) (key : Bytes) : Store :=
  match s.leases.get? lease with
  | none => s
  | some l => { s with leases := s.leases.insert lease { l with keys := SortedSet.insert l.keys key } }

def addPoint (s : Store) (key : Bytes) (p : Point) : Store :=
  { s with histories := s.histories.insert key (p :: (s.histories.get? key).getD []) }

def put (e : Edit) (key value : Bytes) (lease : Option Int) : Edit :=
  let lease := lease.getD 0
  let old := e.store.current key
  let record : Record :=
    { key, value, lease
      createRevision := old.elim e.revision (·.createRevision)
      modRevision := e.revision
      version := old.elim 1 (·.version + 1) }
  let s := match old with
    | some r => if r.lease ≠ 0 && r.lease ≠ lease then unbind e.store r.lease key else e.store
    | none => e.store
  let s := if lease ≠ 0 then bind s lease key else s
  { e with store := addPoint s key ⟨e.revision, some record⟩, events := e.events ++ [⟨.put, record⟩] }

def remove (e : Edit) (key : Bytes) : Edit :=
  match e.store.current key with
  | none => e
  | some r =>
    let s := if r.lease ≠ 0 then unbind e.store r.lease key else e.store
    { e with
      store := addPoint s key ⟨e.revision, none⟩
      events := e.events ++ [⟨.delete, ⟨key, [], 0, e.revision, 0, 0⟩⟩] }

def delete (e : Edit) (span : Span) : Edit := (e.store.keysIn span).foldl remove e

def apply (e : Edit) : Op → Edit
  | .put key value lease => e.put key value lease
  | .delete span => e.delete span

def applyAll (e : Edit) (ops : List Op) : Edit := ops.foldl apply e

end Edit

/-- The events of a batch that a feed is for. -/
def Feed.select (f : Feed) (events : List Event) : List Event :=
  events.filter fun e => f.span.contains e.record.key

/-- Adds what a live feed is for of a commit, if anything. -/
def Feed.offer (f : Feed) (b : Batch) : Feed :=
  let events := f.select b.events
  if f.live && !events.isEmpty then { f with queue := f.queue ++ [.ok ⟨b.revision, events⟩] } else f

def Edit.commit (e : Edit) : Store :=
  if e.events.isEmpty then e.store
  else
    let b : Batch := ⟨e.revision, e.events⟩
    { e.store with
      revision := e.revision
      log := e.store.log ++ [b]
      feeds := e.store.feeds.map (·.offer b) }

namespace Store

/-- The first lease that an operation names and that is not there. -/
def missingLease? (s : Store) : List Op → Option Int
  | [] => none
  | .put _ _ (some l) :: ops => if l ≠ 0 && !s.leases.contains l then some l else s.missingLease? ops
  | _ :: ops => s.missingLease? ops

def commit (s : Store) (ops : List Op) : Store := ((Edit.start s).applyAll ops).commit

/-- Commits the operations, unless one names a lease that is not there. -/
def commit? (s : Store) (ops : List Op) : Outcome Store :=
  match s.missingLease? ops with
  | some l => .error (.leaseNotFound l)
  | none => .ok (s.commit ops)

def satisfies (s : Store) (conditions : List Condition) : Bool :=
  conditions.all fun c => c.holds (s.current c.key)

end Store

end Keyspace
