import Keyspace.Changes
import Keyspace.Diff
import Keyspace.Failure
import Keyspace.Queue

/-!
# Watches

A watch opens a feed and forwards the changes that it hears there into a channel. It stops when it
is cancelled, when the feed ends, after it has delivered a failure, and when nobody receives any
more; the channel is closed when it stops. A relay forwards from a channel into the next.
-/

namespace Keyspace

def watchCapacity : Nat := 64

structure WatchRequest where
  key : String
  /-- Changes since this revision are replayed, if it is positive. -/
  start : Int
  /-- Watch all keys that start with the key. -/
  heads : Bool
  /-- Cut the key off the keys that are reported. -/
  trim : Bool
  deriving DecidableEq, Repr

namespace WatchRequest

def span (r : WatchRequest) : Span :=
  if r.heads then .under (Utf8.encode r.key) else .single (Utf8.encode r.key)

def start? (r : WatchRequest) : Option Int := if 0 < r.start then some r.start else none

def trim? (r : WatchRequest) : Option String := if r.trim then some r.key else none

end WatchRequest

/-! ## Forwarding -/

inductive Phase (α : Type)
  | opening
  | listening
  /-- Waits for room for an item, and stops after the last. -/
  | delivering (x : α) (last : Bool)
  | stopped

structure Forwarder where
  trim : Option String
  phase : Phase (Outcome Changes)
  cancelled : Bool
  out : Channel (Outcome Changes)

namespace Forwarder

def start (trim : Option String) : Forwarder := ⟨trim, .opening, false, .ofCapacity watchCapacity⟩

def stop (f : Forwarder) : Forwarder := { f with phase := .stopped, out := f.out.close }

def isStopped (f : Forwarder) : Bool :=
  match f.phase with
  | .stopped => true
  | _ => false

/-- Opening came to an end. -/
def opened (f : Forwarder) : Outcome Unit → Forwarder
  | .ok _ => { f with phase := .listening }
  | .error e => { f with phase := .delivering (.error e) true }

def heard (f : Forwarder) : Next (Outcome Batch) → Forwarder
  | .item (.ok b) => { f with phase := .delivering (.ok (.ofBatch f.trim b)) false }
  | .item (.error e) => { f with phase := .delivering (.error e) true }
  | .empty => f
  | .ended => f.stop

/-- Delivers an item; `none` if there is no room for it. -/
def deliver? (f : Forwarder) (x : Outcome Changes) (last : Bool) : Option Forwarder :=
  if f.out.abandoned then some f.stop
  else if f.out.isFull then none
  else
    let f := { f with phase := .listening, out := f.out.send x }
    some (if last then f.stop else f)

end Forwarder

/-! ## Relaying diffs -/

/-- Writes of fresh keys are inserts, other writes updates. -/
def Changes.toDiff (c : Changes) : Diff where
  inserts := c.upserts.filterMap fun _ e => if e.version = 1 then some e.value else none
  updates := c.upserts.filterMap fun _ e => if e.version = 1 then none else some e.value
  deletions := SortedSet.ofList c.deletions

structure Relay where
  phase : Phase (Outcome Diff)
  cancelled : Bool
  out : Channel (Outcome Diff)

namespace Relay

def start : Relay := ⟨.listening, false, .ofCapacity watchCapacity⟩

def stop (r : Relay) : Relay := { r with phase := .stopped, out := r.out.close }

def heard (r : Relay) : Next (Outcome Changes) → Relay
  | .item x => { r with phase := .delivering (x.map Changes.toDiff) false }
  | .empty => r
  | .ended => r.stop

/-- Delivers an item; `none` if there is no room for it. A cancelled relay delivers nothing. -/
def deliver? (r : Relay) (x : Outcome Diff) : Option Relay :=
  if r.cancelled || r.out.abandoned then some r.stop
  else if r.out.isFull then none
  else some { r with phase := .listening, out := r.out.send x }

end Relay

end Keyspace
