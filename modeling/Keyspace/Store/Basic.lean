import Keyspace.Failure
import Keyspace.Txn

/-!
# The store

The store keeps for every key its history, a log of what was committed, the leases with the keys
bound to them, and the feeds of the watches that are open. One revision counts commits. A view of
the store is a sorted map of records: the latest one (`latest`) or that at a past revision (`asOf`).
-/

namespace Keyspace

/-- What a key was from one revision on; no record if it was deleted. -/
structure Point where
  revision : Int
  record : Option Record
  deriving DecidableEq, Repr

/-- The points of a key, the newest first. Points of one revision are in order of writing. -/
abbrev History := List Point

namespace History

def latest (h : History) : Option Record := h.head?.bind (·.record)

def asOf (h : History) (revision : Int) : Option Record :=
  (h.find? (·.revision ≤ revision)).bind (·.record)

end History

structure Lease where
  /-- In milliseconds of the clock. -/
  deadline : Nat
  keys : SortedSet Bytes
  deriving DecidableEq

abbrev FeedId := Nat

/-- What a watch has not yet taken. Once it is not live, nothing is added. -/
structure Feed where
  id : FeedId
  span : Span
  live : Bool
  queue : List (Outcome Batch)

structure Member where
  id : Nat
  name : String
  peerUrls : List String
  clientUrls : List String
  learner : Bool
  deriving DecidableEq, Repr

structure Host where
  member : Member
  responsive : Bool
  deriving DecidableEq, Repr

structure Cluster where
  id : Nat
  leader : Nat
  term : Nat
  hosts : List Host
  deriving DecidableEq, Repr

/-- All members answer, and the first one leads. -/
def Cluster.ofNames (names : List String) : Cluster where
  id := 0x6c617474
  leader := 1
  term := 2
  hosts := names.zipIdx.map fun (name, i) =>
    ⟨⟨i + 1, name, ["mem://" ++ name ++ ":2380"], ["mem://" ++ name ++ ":2379"], false⟩, true⟩

structure Store where
  revision : Int
  /-- Below this the past is gone. -/
  floor : Int
  histories : SortedMap Bytes History
  /-- What was committed, the oldest first. -/
  log : List Batch
  leases : SortedMap Int Lease
  nextLease : Int
  feeds : List Feed
  nextFeed : FeedId
  cluster : Cluster

namespace Store

def ofMembers (names : List String) : Store where
  revision := 1
  floor := 0
  histories := .empty
  log := []
  leases := .empty
  nextLease := 1
  feeds := []
  nextFeed := 0
  cluster := .ofNames names

/-! ## Views -/

def current (s : Store) (key : Bytes) : Option Record := (s.histories.get? key).bind History.latest

def latest (s : Store) : SortedMap Bytes Record := s.histories.filterMap fun _ h => h.latest

def asOf (s : Store) (revision : Int) : SortedMap Bytes Record :=
  s.histories.filterMap fun _ h => h.asOf revision

/-! ## Reading -/

/-- The keys of a span that have a history, cut out of the key order. Nothing is cut if the stop is not above
the first key. -/
def keysIn? (s : Store) (span : Span) : Option (List Bytes) :=
  match span.stop with
  | none => some (if s.histories.contains span.first then [span.first] else [])
  | some [0] => some (s.histories.dropBelow span.first).keys
  | some stop =>
    if Bytes.lt span.first stop then (s.histories.slice? span.first stop).map (·.keys) else some []

theorem isSome_keysIn? (s : Store) (span : Span) : (s.keysIn? span).isSome := by
  unfold keysIn?
  split
  · rfl
  · rfl
  · split
    · rename_i h
      rw [SortedMap.slice?_of_lt _ h]
      rfl
    · rfl

def keysIn (s : Store) (span : Span) : List Bytes := (s.keysIn? span).get (s.isSome_keysIn? span)

theorem keysIn?_eq_some (s : Store) (span : Span) : s.keysIn? span = some (s.keysIn span) :=
  (Option.some_get _).symm

/-- The revision that a read is served at; one that is not positive means the latest. -/
def readRevision (s : Store) (revision : Option Int) : Outcome Int :=
  match revision with
  | none => .ok s.revision
  | some r =>
    if r ≤ 0 then .ok s.revision
    else if r < s.floor then .error (.revisionCompacted r s.floor)
    else if s.revision < r then
      .error (.invalidRequest ("required revision " ++ toString r
        ++ " is a future revision (current " ++ toString s.revision ++ ")"))
    else .ok r

/-- The records of a span in key order. -/
def read (s : Store) (span : Span) (revision : Option Int) : Outcome (List Record) :=
  (s.readRevision revision).map fun r =>
    (s.keysIn span).filterMap fun k => (s.histories.get? k).bind (·.asOf r)

end Store

end Keyspace
