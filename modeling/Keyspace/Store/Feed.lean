import Keyspace.Queue
import Keyspace.Store.Write

/-!
# Feeds

A watch opens a feed: what was committed since its start revision, and then whatever is committed
while it is open.
-/

namespace Keyspace.Store

def addFeed (s : Store) (span : Span) (live : Bool) (queue : List (Outcome Batch)) : FeedId × Store :=
  (s.nextFeed,
    { s with nextFeed := s.nextFeed + 1, feeds := s.feeds ++ [⟨s.nextFeed, span, live, queue⟩] })

/-- The logged batches since a revision, each as far as a span goes. -/
def replay (s : Store) (span : Span) (start : Int) : List Batch :=
  (s.log.filter (start ≤ ·.revision)).filterMap fun b =>
    match b.events.filter fun e => span.contains e.record.key with
    | [] => none
    | events => some ⟨b.revision, events⟩

/-- A start revision that is not positive means from now on. -/
def watch (s : Store) (span : Span) (start : Option Int) : FeedId × Store :=
  match start.filter (0 < ·) with
  | none => s.addFeed span true []
  | some r =>
    if r < s.floor then s.addFeed span false [.error (.revisionCompacted r s.floor)]
    else s.addFeed span true ((s.replay span r).map .ok)

def takeNext (s : Store) (id : FeedId) : Next (Outcome Batch) × Store :=
  match s.feeds.find? (·.id = id) with
  | none => (.ended, s)
  | some f =>
    match f.queue with
    | [] => (if f.live then .empty else .ended, s)
    | x :: queue =>
      (.item x, { s with feeds := s.feeds.map fun g => if g.id = id then { g with queue } else g })

def closeFeed (s : Store) (id : FeedId) : Store :=
  { s with feeds := s.feeds.filter (·.id ≠ id) }

end Keyspace.Store
